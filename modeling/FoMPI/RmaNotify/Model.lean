import FoMPI.Dcache.Model
import FoMPI.RmaNotify.Network
import FoMPI.Window.Locality
import FoMPI.Window.Regions

/-!
# Notified transfers

`_foMPI_Rma_notify` as it is built with shared memory support. Every routine takes
the operations issued so far and adds its own. Byte counts are natural numbers: a
size that came out negative moves nothing.
-/
namespace FoMPI.RmaNotify
open FoMPI.Dcache FoMPI.Foundation FoMPI.Notif FoMPI.Window

/-- The operations of the call, and `nbi_counter` of the window. -/
structure Net where
  ops : List NetOp
  nbiCounter : BitVec 32

/-- The part of `fompi_seg_desc_t` that says what it covers. -/
structure Segment where
  addr : ℤ
  size : ℤ

/-- `_foMPI_is_addr_in_seg`. -/
def Segment.hasAddr (s : Segment) (x : ℤ) : Bool := s.addr ≤ x ∧ x ≤ s.addr + s.size

def segmentOf (r : Region) : Segment := ⟨r.base, r.size⟩

/-- What the call reads of the window. -/
structure Win where
  locality : Locality
  commrank : ℤ
  /-- `win_array[target_rank].base` -/
  base : ℤ
  /-- `win_array[target_rank].disp_unit` -/
  dispUnit : ℕ
  /-- `xpmem_array[local_rank].base` -/
  xpmemBase : ℤ
  /-- `win_array[commrank].seg` -/
  ownSeg : Segment
  /-- `dynamic_list[target_rank].remote_mem_regions` -/
  remoteMemRegions : List Region
  /-- `win_dynamic_mem_regions` -/
  winDynamicMemRegions : List Region

/-- The types of the fast path. -/
inductive Intrinsic
  | char | uint64 | double | int | byte

def Intrinsic.size : Intrinsic → ℕ
  | char | byte => 1
  | int => 4
  | uint64 | double => 8

/-- What the call asks of a datatype besides its layout. -/
structure Datatypes (ι : Type*) where
  intrinsic : ι → Option Intrinsic
  /-- `MPI_Type_get_extent` -/
  extent : ι → ℤ
  /-- `MPI_Type_get_true_extent` -/
  trueExtent : ι → ℤ

/-- The arguments of a call, for a target other than `MPI_PROC_NULL` and counts of at least one. -/
structure Args (ι : Type*) where
  operation : Operation
  originAddr : ℤ
  origin : Key ι
  targetRank : ℤ
  targetDisp : ℤ
  target : Key ι
  tag : ℤ
  originCount : 1 ≤ origin.2
  targetCount : 1 ≤ target.2

namespace Net

def emit (net : Net) (op : NetOp) : Net := { net with ops := net.ops ++ [op] }

/-- `dmapp_put_nbi` or `dmapp_get_nbi`, which `nbi_counter` counts. -/
def dmapp (net : Net) (operation : Operation) (c : Chunk) : Net :=
  { net.emit (.dmapp operation c) with nbiCounter := net.nbiCounter + 1 }

end Net

/-- `offset_modulo`, an `int`. -/
def offsetModulo (size : ℕ) : ℤ := Int.bmod (size / 16 * 16) 4294967296

/-- `nelements_modulo`. -/
def nelementsModulo (size : ℕ) : ℕ := (size - offsetModulo size).toNat

/-- `dmapp_simple_put` and `dmapp_simple_get`: words of sixteen bytes, and the rest. -/
def Net.dmappSimple (net : Net) (operation : Operation) (c : Chunk) : Net :=
  let net :=
    if c.size / 16 ≠ 0 then
      net.dmapp operation ⟨c.originOffset, c.targetOffset, c.size / 16 * 16⟩
    else net
  if nelementsModulo c.size ≠ 0 then
    net.dmapp operation ⟨c.originOffset + offsetModulo c.size, c.targetOffset + offsetModulo c.size,
      nelementsModulo c.size⟩
  else net

/-- A run of them without a notification. -/
def Net.dmappAll (net : Net) (operation : Operation) (cs : List Chunk) : Net :=
  cs.foldl (fun net c => net.dmappSimple operation c) net

/-- `xpmem_simple_put` and `xpmem_simple_get`. -/
def Net.xpmemSimple (net : Net) (operation : Operation) (c : Chunk) : Net :=
  net.emit (.copy operation c)

/-- `foMPI_Win_flush_all`. -/
def Net.winFlushAll (net : Net) : Net :=
  let net := net.emit .fence
  if net.nbiCounter ≠ 0 then { net.emit .gsyncWait with nbiCounter := 0 } else net

/-- `_foMPI_EncodeID`. -/
def encodeID (rank idMsg : BitVec 16) : BitVec 32 := rank.setWidth 32 <<< 16 + idMsg.setWidth 32

def rdmaThreshold : ℕ := 1024

/-- `ugni_simple_put` and `ugni_simple_get`. A buffer that has to be registered is unregistered
again after a flush. -/
def Net.ugniSimple (net : Net) (W : Win) (operation : Operation) (c : Chunk)
    (srcSeg : Option Segment) (tag : ℤ) : Net :=
  let id := encodeID (BitVec.ofInt 16 W.commrank) (BitVec.ofInt 16 tag)
  let segNeedsUnregister :=
    if c.size < rdmaThreshold ∧ operation = .put then false
    else !srcSeg.any fun s => s.hasAddr c.originOffset
  let net := net.emit (.post operation c id (tag ≠ anyTag))
  if segNeedsUnregister then net.winFlushAll else net

def maxRdmaTransferLength : ℕ := 4294967295

variable {ι : Type*} [DecidableEq ι] (D : Datatypes ι) (W : Win) (a : Args ι)

/-- `origin_count * origin_type_size` on the fast path for intrinsic datatypes; the product is an
`int`. -/
def fastPath : Option ℕ :=
  if W.locality.dynamic then none
  else if a.origin.1 = a.target.1 then
    (D.intrinsic a.origin.1).map fun k => (Int.bmod (a.origin.2 * k.size) 4294967296).toNat
  else none

/-- The address of the target buffer. -/
def targetOffset : ℤ :=
  if W.locality.dynamic then a.targetDisp
  else if W.locality.onnodeRankGlobalToLocal a.targetRank ≠ -1 then
    W.xpmemBase + a.targetDisp * W.dispUnit
  else W.base + a.targetDisp * W.dispUnit

/-- There is one descriptor for the whole access. -/
def oneRegion : Bool :=
  !W.locality.dynamic ||
    (wholeRegion W.remoteMemRegions (targetOffset W a)
      ((a.target.2 - 1) * D.extent a.target.1 + D.trueExtent a.target.1)).isSome

/-- The scan of `win_dynamic_mem_regions` for the source. -/
def sourceRegion : Option Segment :=
  (wholeRegion W.winDynamicMemRegions a.originAddr
    ((a.origin.2 - 1) * D.extent a.origin.1 + D.trueExtent a.origin.1)).map segmentOf

/-- A chunk relative to the two buffers. -/
def Chunk.place (o t : ℤ) (c : Chunk) : Chunk := ⟨o + c.originOffset, t + c.targetOffset, c.size⟩

/-- The pieces of all blocks, for a target in more than one region. -/
def splitBlocks (regions : List Region) (t : ℤ) : List Chunk → Option (List Chunk)
  | [] => some []
  | c :: cs => do
    let pieces ← splitBlock regions t c
    let rest ← splitBlocks regions t cs
    return pieces.map Prod.snd ++ rest

/-- The pieces handed to the communication function. -/
def piecesOf (blocks : List Chunk) : Option (List Chunk) :=
  if oneRegion D W a then some blocks
  else splitBlocks W.remoteMemRegions (targetOffset W a) blocks

/-- `communication_and_datatype_handling`. -/
def communicationAndDatatypeHandling (layout : Layout ι) (commfunc : Net → Chunk → Net)
    (cache : GlobInfo ι) (net : Net) : Option (GlobInfo ι × Net) :=
  let t := targetOffset W a
  match fastPath D W a with
  | some size => some (cache, commfunc net ⟨a.originAddr, t, size⟩)
  | none => do
    let (blocks, cache) ← cache.transfer layout a.origin a.target (calls layout a.origin a.target)
    (piecesOf D W a blocks).map fun pieces =>
      (cache, (pieces.map (Chunk.place a.originAddr t)).foldl commfunc net)

/-- The loop on the blocks of one region. The last block is sent with the notification if it is
the first one as well and `direct` holds; the notification follows a flush otherwise. -/
def notifyBlocks (operation : Operation) (direct : Chunk → Bool) (srcSeg : Option Segment) (tag : ℤ) :
    ℕ → List Chunk → Net → Net
  | _, [], net => net
  | countBlocks, c :: cs, net =>
    if tag ≠ anyTag then
      if cs = [] then
        if countBlocks = 0 ∧ direct c then net.ugniSimple W operation c srcSeg tag
        else
          (net.dmappSimple operation c).winFlushAll.ugniSimple W .put
            ⟨c.originOffset, c.targetOffset, 0⟩ srcSeg tag
      else notifyBlocks operation direct srcSeg tag (countBlocks + 1) cs (net.dmappSimple operation c)
    else notifyBlocks operation direct srcSeg tag (countBlocks + 1) cs (net.dmappSimple operation c)

/-- Where the block offsets stand after the loop over more than one region. -/
def afterLast (blocks : List Chunk) : Chunk :=
  match blocks.getLast? with
  | some c => ⟨c.originOffset + c.size, c.targetOffset + c.size, 0⟩
  | none => ⟨0, 0, 0⟩

/-- What the put and the get routine have in common. -/
def ugniNotifyOnly (operation : Operation) (direct : Chunk → Bool) (srcSeg : Option Segment) (t : ℤ)
    (layout : Layout ι) (cache : GlobInfo ι) (net : Net) : Option (GlobInfo ι × Net) :=
  match fastPath D W a with
  | some size =>
    let c : Chunk := ⟨a.originAddr, t, size⟩
    if direct c then some (cache, net.ugniSimple W operation c srcSeg a.tag)
    else
      some (cache, (net.dmappSimple operation c).winFlushAll.ugniSimple W .put
        ⟨a.originAddr, t, 0⟩ srcSeg a.tag)
  | none => do
    let (blocks, cache) ← cache.transfer layout a.origin a.target (calls layout a.origin a.target)
    if oneRegion D W a then
      return (cache, notifyBlocks W operation direct srcSeg a.tag 0
        (blocks.map (Chunk.place a.originAddr t)) net)
    else
      (splitBlocks W.remoteMemRegions t blocks).map fun pieces =>
        let net := net.dmappAll operation (pieces.map (Chunk.place a.originAddr t))
        if a.tag ≠ anyTag then
          (cache, net.winFlushAll.ugniSimple W .put
            (Chunk.place a.originAddr t (afterLast blocks)) srcSeg a.tag)
        else (cache, net)

section Put

def putDirect (c : Chunk) : Bool := c.size < maxRdmaTransferLength

/-- The source segment of a put: the own window only if it holds the origin address. -/
def putSrcSeg : Option Segment :=
  if W.locality.dynamic then sourceRegion D W a
  else if W.ownSeg.hasAddr a.originAddr then some W.ownSeg else none

/-- `communication_and_datatype_handling_ugni_put_notify_only`. -/
def communicationAndDatatypeHandlingUgniPutNotifyOnly :
    Layout ι → GlobInfo ι → Net → Option (GlobInfo ι × Net) :=
  ugniNotifyOnly D W a .put putDirect (putSrcSeg D W a) (targetOffset W a)

end Put

section Get

/-- `is_aligned` for `_foMPI_UGNI_GET_ALIGN`. -/
def isAligned (x : ℤ) : Bool := x % 4 = 0

def getDirect (srcSeg : Option Segment) (c : Chunk) : Bool :=
  isAligned c.originOffset && isAligned c.targetOffset && c.size < maxRdmaTransferLength &&
    srcSeg.isSome

def getSrcSeg : Option Segment :=
  if W.locality.dynamic then sourceRegion D W a else some W.ownSeg

/-- The get routine takes the mapped base only for calls without a notification. -/
def getTargetOffset : ℤ :=
  if W.locality.dynamic then a.targetDisp
  else if a.tag = anyTag ∧ W.locality.onnodeRankGlobalToLocal a.targetRank ≠ -1 then
    W.xpmemBase + a.targetDisp * W.dispUnit
  else W.base + a.targetDisp * W.dispUnit

/-- `communication_and_datatype_handling_ugni_get_notify_only`. -/
def communicationAndDatatypeHandlingUgniGetNotifyOnly :
    Layout ι → GlobInfo ι → Net → Option (GlobInfo ι × Net) :=
  ugniNotifyOnly D W a .get (getDirect (getSrcSeg D W a)) (getSrcSeg D W a) (getTargetOffset W a)

end Get

/-- `_foMPI_Rma_notify`. -/
def rmaNotify (layout : Layout ι) (cache : GlobInfo ι) (net : Net) : Option (GlobInfo ι × Net) :=
  if W.locality.viaXpmem a.targetRank then do
    let (cache, net) ← communicationAndDatatypeHandling D W a layout
      (fun net c => net.xpmemSimple a.operation c) cache net
    return (cache, (net.emit .fence).emit
      (.push (BitVec.ofInt 16 W.commrank) (BitVec.ofInt 16 a.tag)))
  else
    match a.operation with
    | .get => communicationAndDatatypeHandlingUgniGetNotifyOnly D W a layout cache net
    | .put => communicationAndDatatypeHandlingUgniPutNotifyOnly D W a layout cache net

end FoMPI.RmaNotify
