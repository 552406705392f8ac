import FoMPI.Foundation.Conversions
import Mathlib.Data.Int.Notation
import Mathlib.Logic.Function.Basic
import Mathlib.Tactic.Common

/-!
# Segments

How MPITypes walks a datatype: dataloops, the stack of a segment, and
`Segment_manipulate`, which hands one piece of the data after the other to piece functions.
`MPIT_Type_init` asks for dataloops with the flag 0, `DLOOP_DATALOOP_HOMOGENEOUS`; there are
no struct dataloops among these.
-/
namespace FoMPI.Mpitypes
open FoMPI.Foundation

/-- `loop_params` less the dataloop inside. -/
inductive LoopParams
  | contig (count : ℕ)
  | vector (count blocksize : ℕ) (stride : ℤ)
  | blockindexed (count blocksize : ℕ) (offsetArray : List ℤ)
  | indexed (count : ℕ) (blocksizeArray : List ℕ) (offsetArray : List ℤ) (totalBlocks : ℕ)
  deriving DecidableEq, Repr

/-- `DLOOP_Dataloop`. A `final` one has `DLOOP_FINAL_MASK` in its `kind`. -/
inductive Dataloop
  | final (loopParams : LoopParams) (elSize : ℕ) (elExtent : ℤ)
  | nested (loopParams : LoopParams) (elSize : ℕ) (elExtent : ℤ) (dataloop : Dataloop)
  deriving DecidableEq, Repr

/-- `orig_count` of `DLOOP_Stackelm_load`. -/
def LoopParams.count : LoopParams → ℕ
  | .contig _ => 1
  | .vector count _ _ | .blockindexed count _ _ | .indexed count _ _ _ => count

/-- `DLOOP_Stackelm_blocksize` when `i` blocks are done. -/
def LoopParams.blocksize : LoopParams → ℕ → ℕ
  | .contig count, _ => count
  | .vector _ blocksize _, _ | .blockindexed _ blocksize _, _ => blocksize
  | .indexed _ blocksizeArray _ _, i => blocksizeArray.getD i 0

/-- `DLOOP_Stackelm_offset` at the first block. -/
def LoopParams.firstOffset : LoopParams → ℤ
  | .contig _ | .vector _ _ _ => 0
  | .blockindexed _ _ offsetArray | .indexed _ _ offsetArray _ => offsetArray.getD 0 0

namespace Dataloop

def loopParams : Dataloop → LoopParams
  | .final l _ _ | .nested l _ _ _ => l

def elSize : Dataloop → ℕ
  | .final _ size _ | .nested _ size _ _ => size

def elExtent : Dataloop → ℤ
  | .final _ _ extent | .nested _ _ extent _ => extent

def isFinal : Dataloop → Bool
  | .final .. => true
  | .nested .. => false

/-- The depth of the stack that a walk needs. -/
def depth : Dataloop → ℕ
  | .final .. => 1
  | .nested _ _ _ d => d.depth + 1

end Dataloop

/-- `DLOOP_Dataloop_stackelm`. -/
structure Stackelm where
  loopP : Dataloop
  origCount : ℕ
  curcount : ℕ
  origBlock : ℕ
  curblock : ℕ
  origOffset : ℤ
  curoffset : ℤ
  deriving DecidableEq, Repr

/-- `DLOOP_Segment`. The element of the stack that the walk is at is `none` behind the last piece, where
`cur_sp` is -1. -/
structure Segment where
  ptr : ℤ
  streamOff : ℤ
  curSp : Option ℕ
  stackelm : ℕ → Stackelm

/-- What MPITypes knows of a datatype. Intrinsic datatypes other than pairs have no dataloop, and one size of an
element is enough for what is made of these: `el_size` is that of `el_type`. -/
structure Handle where
  size : ℕ
  extent : ℤ
  loop : Option Dataloop

section Init

/-- `DLOOP_Stackelm_load`. -/
def Stackelm.load (e : Stackelm) (dlp : Dataloop) : Stackelm :=
  { e with
    loopP := dlp
    origCount := dlp.loopParams.count
    curcount := dlp.loopParams.count
    origBlock := dlp.loopParams.blocksize 0 }

/-- The loop that `Segment_init` walks: that of the datatype, or `builtin_loop`. -/
def Handle.loopOf (h : Handle) (count : ℕ) : Dataloop :=
  match h.loop with
  | none => .final (.contig count) h.size h.extent
  | some loop =>
    if count = 0 then .final (.contig 0) 0 0
    else if count = 1 then loop
    else
      match loop with
      | .final (.contig c) elSize elExtent =>
        if h.size = h.extent then .final (.contig (count * c)) elSize elExtent
        else .final (.vector count c h.extent) elSize elExtent
      | oldloop => .nested (.contig count) h.size h.extent oldloop

/-- `DLOOP_Stackelm_load` for a loop and those inside. -/
def loadAll : Dataloop → ℕ → (ℕ → Stackelm) → ℕ → Stackelm
  | .final l size extent, i, elm => Function.update elm i ((elm i).load (.final l size extent))
  | .nested l size extent d, i, elm =>
    loadAll d (i + 1) (Function.update elm i ((elm i).load (.nested l size extent d)))

/-- `DLOOP_MAX_DATATYPE_DEPTH`. -/
def maxDatatypeDepth : ℕ := 16

/-- The part of the first element that is not set by `DLOOP_Stackelm_load`. -/
def Stackelm.begin (e : Stackelm) : Stackelm :=
  { e with origOffset := 0, curblock := e.origBlock, curoffset := e.loopP.loopParams.firstOffset }

/-- `Segment_init`; the stack holds anything before. It fails an assertion if the datatype is too deep. -/
def segmentInit (buf : ℤ) (count : ℕ) (h : Handle) (stack : ℕ → Stackelm) : Option Segment :=
  let dlp := h.loopOf count
  if dlp.depth < maxDatatypeDepth then
    let stack := loadAll dlp 0 stack
    some ⟨buf, 0, some 0, Function.update stack 0 (stack 0).begin⟩
  else none

end Init

section Pieces
universe u

/-- The piece functions with their parameters of type `P`. One is given how many blocks to process
and what describes them, and returns how many it has processed and whether to stop. It may fail an
assertion. -/
structure PieceFns (P : Type u) where
  contigfn : Option ((blocks elSize : ℕ) → (relOff bufp : ℤ) → P → Option (P × ℕ × Bool))
  vectorfn : Option ((blocks count blklen : ℕ) → (stride : ℤ) → (elSize : ℕ) → (relOff bufp : ℤ) → P →
    Option (P × ℕ × Bool))
  blkidxfn : Option ((blocks count blklen : ℕ) → (offsetarray : List ℤ) → (elSize : ℕ) → (relOff bufp : ℤ) → P →
    Option (P × ℕ × Bool))
  indexfn : Option ((blocks count : ℕ) → (blockarray : List ℕ) → (offsetarray : List ℤ) → (elSize : ℕ) →
    (relOff bufp : ℤ) → P → Option (P × ℕ × Bool))

variable {P : Type u}

/-- No piece functions, which repositions the segment. -/
def PieceFns.null : PieceFns P := ⟨none, none, none, none⟩

/-- `piecefn_type`. -/
inductive Piece
  | null
  | contig
  | vector
  | blockindexed
  | indexed
  deriving DecidableEq, Repr

/-- The piece function for a leaf, and `myblocks`. -/
def PieceFns.choose (fns : PieceFns P) (e : Stackelm) : Piece × ℕ :=
  let otherwise : Piece × ℕ := (if fns.contigfn.isSome then .contig else .null, e.curblock)
  match e.loopP.loopParams with
  | .contig _ => otherwise
  | .blockindexed .. =>
    if fns.blkidxfn.isSome ∧ e.origBlock = e.curblock ∧ e.origCount = e.curcount then
      (.blockindexed, e.curblock * e.curcount)
    else otherwise
  | .indexed _ blocksizeArray _ totalBlocks =>
    if fns.indexfn.isSome ∧ e.origCount = e.curcount ∧ e.curblock = blocksizeArray.getD 0 0 then
      (.indexed, totalBlocks)
    else otherwise
  | .vector .. =>
    if fns.vectorfn.isSome ∧ e.origBlock = e.curblock then (.vector, e.curblock * e.curcount) else otherwise

/-- The call of a piece function. -/
def PieceFns.call (fns : PieceFns P) (piece : Piece) (myblocks : ℕ) (e : Stackelm) (ptr : ℤ) (p : P) :
    Option (P × ℕ × Bool) :=
  match piece, e.loopP.loopParams with
  | .contig, _ => fns.contigfn.bind fun f => f myblocks e.loopP.elSize e.curoffset ptr p
  | .vector, .vector _ _ stride =>
    fns.vectorfn.bind fun f => f myblocks e.curcount e.origBlock stride e.loopP.elSize e.curoffset ptr p
  | .blockindexed, .blockindexed _ _ offsetArray =>
    fns.blkidxfn.bind fun f => f myblocks e.curcount e.origBlock offsetArray e.loopP.elSize e.origOffset ptr p
  | .indexed, .indexed _ blocksizeArray offsetArray _ =>
    fns.indexfn.bind fun f => f myblocks e.curcount blocksizeArray offsetArray e.loopP.elSize e.origOffset ptr p
  | _, _ => some (p, myblocks, false)

end Pieces

section Stack

/-- The loop over whole blocks that were processed: `curcount`, `curblock` and `myblocks` behind it. -/
def wholeBlocks (blocksize : ℕ → ℕ) (origCount : ℕ) : ℕ → ℕ → ℕ → Option (ℕ × ℕ × ℕ)
  | 0, curblock, myblocks => if 0 < myblocks ∧ curblock ≤ myblocks then none else some (0, curblock, myblocks)
  | curcount + 1, curblock, myblocks =>
    if 0 < myblocks ∧ curblock ≤ myblocks then
      wholeBlocks blocksize origCount curcount (blocksize (origCount - curcount)) (myblocks - curblock)
    else some (curcount + 1, curblock, myblocks)

/-- A leaf when `myblocks`, no less than `curblock`, were processed, and whether it is popped. -/
def Stackelm.advance (e : Stackelm) (myblocks : ℕ) : Option (Stackelm × Bool) :=
  match e.loopP.loopParams with
  | .indexed _ blocksizeArray offsetArray _ => do
    let (curcount, curblock, left) ←
      wholeBlocks (fun i => blocksizeArray.getD i 0) e.origCount e.curcount e.curblock myblocks
    if curcount = 0 then
      if left = 0 then some ({ e with curcount := curcount, curblock := curblock }, true) else none
    else
      some ({ e with
        curcount := curcount
        origBlock := curblock
        curblock := curblock - left
        curoffset := e.origOffset + offsetArray.getD (e.origCount - curcount) 0 + left * e.loopP.elSize }, false)
  | .vector _ _ stride =>
    let curcount := e.curcount - myblocks / e.curblock
    if curcount = 0 then
      if myblocks % e.curblock = 0 then some ({ e with curcount := curcount }, true) else none
    else
      let curblock := e.origBlock - myblocks % e.curblock
      some ({ e with
        curcount := curcount
        curblock := curblock
        curoffset := e.origOffset + ((e.origCount - curcount : ℕ) : ℤ) * stride +
          ((e.origBlock - curblock : ℕ) : ℤ) * e.loopP.elSize }, false)
  | .contig _ => if myblocks = e.curblock ∧ e.curcount = 1 then some (e, true) else none
  | .blockindexed _ _ offsetArray => do
    let (curcount, curblock, left) ← wholeBlocks (fun _ => e.origBlock) e.origCount e.curcount e.curblock myblocks
    if curcount = 0 then
      if left = 0 then some ({ e with curcount := curcount, curblock := curblock }, true) else none
    else
      some ({ e with
        curcount := curcount
        curblock := curblock - left
        curoffset := e.origOffset + offsetArray.getD (e.origCount - curcount) 0 + left * e.loopP.elSize }, false)

/-- A loop that is no leaf at the end of a block, and whether it is popped. -/
def Stackelm.endBlock (e : Stackelm) : Stackelm × Bool :=
  let curcount := e.curcount - 1
  let origBlock :=
    match e.loopP.loopParams with
    | .indexed _ blocksizeArray _ _ => blocksizeArray.getD (if curcount ≠ 0 then e.origCount - curcount else 0) 0
    | _ => e.origBlock
  ({ e with curcount := curcount, origBlock := origBlock, curblock := origBlock }, curcount = 0)

/-- `orig_offset` of the next element when `cur` pushes it. The indices are of type `int`; behind the end of an
array of displacements nothing is said. -/
def Stackelm.nextOffset (cur : Stackelm) : ℤ :=
  let countIndex := asInt (cur.origCount - cur.curcount : ℕ)
  let blockIndex := asInt (cur.origBlock - cur.curblock : ℕ)
  match cur.loopP.loopParams with
  | .contig _ => cur.curoffset + blockIndex * cur.loopP.elExtent
  | .vector _ _ stride => cur.origOffset + countIndex * stride + blockIndex * cur.loopP.elExtent
  | .blockindexed _ _ offsetArray | .indexed _ _ offsetArray _ =>
    cur.origOffset + blockIndex * cur.loopP.elExtent + offsetArray.getD countIndex.toNat 0

/-- The values of the next element when it is pushed. -/
def Stackelm.enter (next : Stackelm) (origOffset : ℤ) : Stackelm :=
  { next with
    origOffset := origOffset
    curcount := next.origCount
    curblock :=
      match next.loopP.loopParams with
      | .indexed _ blocksizeArray _ _ => blocksizeArray.getD 0 0
      | _ => next.origBlock
    curoffset :=
      match next.loopP.loopParams with
      | .contig _ | .vector _ _ _ => origOffset
      | .blockindexed _ _ offsetArray | .indexed _ _ offsetArray _ => origOffset + offsetArray.getD 0 0 }

/-- `DLOOP_SEGMENT_POP_AND_MAYBE_EXIT`: `cur_sp - 1`. -/
def below : ℕ → Option ℕ
  | 0 => none
  | sp + 1 => some sp

def Segment.set (s : Segment) (sp : ℕ) (e : Stackelm) : Segment :=
  { s with stackelm := Function.update s.stackelm sp e }

end Stack

section Manipulate
universe u
variable {P : Type u}

/-- `SEGMENT_IGNORE_LAST`. -/
def ignoreLast : ℤ := -1

/-- The piece does not end in front of `last`. -/
def cut (last streamOff : ℤ) (elSize myblocks : ℕ) : Prop := last ≠ ignoreLast ∧ last < streamOff + myblocks * elSize

instance (last streamOff : ℤ) (elSize myblocks : ℕ) : Decidable (cut last streamOff elSize myblocks) :=
  inferInstanceAs (Decidable (_ ∧ _))

/-- A leaf behind its piece function, which has processed `myblocks`. -/
def Segment.consume (s : Segment) (sp : ℕ) (p : P) (myblocks : ℕ) (exit : Bool) : Option (Segment × P × Bool) :=
  let e := s.stackelm sp
  let s := { s with streamOff := s.streamOff + myblocks * e.loopP.elSize, curSp := some sp }
  if myblocks = 0 then some (s, p, true)
  else if myblocks < e.curblock then
    some (s.set sp { e with curoffset := e.curoffset + myblocks * e.loopP.elSize, curblock := e.curblock - myblocks },
      p, true)
  else
    (e.advance myblocks).map fun (e, popped) =>
      let curSp := if popped then below sp else some sp
      ({ s.set sp e with curSp := curSp }, p, exit || curSp.isNone)

/-- A leaf. -/
def Segment.leaf (fns : PieceFns P) (last : ℤ) (s : Segment) (sp : ℕ) (p : P) : Option (Segment × P × Bool) :=
  let e := s.stackelm sp
  let (piece, blocks) := fns.choose e
  let myblocks : ℤ :=
    if cut last s.streamOff e.loopP.elSize blocks then (last - s.streamOff).tdiv e.loopP.elSize else blocks
  if cut last s.streamOff e.loopP.elSize blocks ∧ myblocks = 0 then some ({ s with curSp := some sp }, p, true)
  else if myblocks < 0 then none
  else
    (fns.call piece myblocks.toNat e s.ptr p).bind fun (p, myblocks, exit) => s.consume sp p myblocks exit

/-- One iteration, and whether it returns. -/
def Segment.iterate (fns : PieceFns P) (last : ℤ) (s : Segment) (p : P) : Option (Segment × P × Bool) :=
  match s.curSp with
  | none => none
  | some sp =>
    let e := s.stackelm sp
    if e.loopP.isFinal then
      if e.curcount = 0 then
        -- popped, and what is below taken for the leaf
        match sp with
        | 0 => some ({ s with curSp := none }, p, true)
        | sp + 1 => s.leaf fns last sp p
      else s.leaf fns last sp p
    else if e.curblock = 0 then
      let (e, popped) := e.endBlock
      let curSp := if popped then below sp else some sp
      some ({ s.set sp e with curSp := curSp }, p, curSp.isNone)
    else
      let next := (s.stackelm (sp + 1)).enter e.nextOffset
      some ({ (s.set (sp + 1) next).set sp { e with curblock := e.curblock - 1 } with curSp := some (sp + 1) },
        p, false)

/-- The loop of `Segment_manipulate`. -/
def Segment.loop (fns : PieceFns P) (last : ℤ) : ℕ → Segment → P → Option (Segment × P)
  | 0, _, _ => none
  | fuel + 1, s, p =>
    (s.iterate fns last p).bind fun (s, p, returned) => if returned then some (s, p) else s.loop fns last fuel p

/-- `DLOOP_SEGMENT_RESET_VALUES`. -/
def Segment.reset (s : Segment) : Segment :=
  let e := s.stackelm 0
  let blocksize := e.loopP.loopParams.blocksize 0
  { s.set 0 { e with
      curcount := e.origCount
      origBlock := blocksize
      curblock := blocksize
      curoffset := e.origOffset + e.loopP.loopParams.firstOffset } with streamOff := 0, curSp := some 0 }

/-- The part of `Segment_manipulate` that takes the segment to `first`. -/
def Segment.reposition (fuel : ℕ) (s : Segment) (first : ℤ) : Option Segment :=
  let s := if first < s.streamOff then s.reset else s
  if first = s.streamOff then some s
  else (s.loop .null first fuel ()).bind fun (s, _) => if s.streamOff = first then some s else none

/-- `Segment_manipulate`, with the value of `*lastp` that it leaves. Sizes in the stream are those in memory. -/
def Segment.manipulate (fns : PieceFns P) (fuel : ℕ) (s : Segment) (first last : ℤ) (p : P) :
    Option (Segment × ℤ × P) :=
  if first = last then some (s, last, p)
  else
    (s.reposition fuel first).bind fun s => (s.loop fns last fuel p).map fun (s, p) => (s, s.streamOff, p)

end Manipulate

end FoMPI.Mpitypes
