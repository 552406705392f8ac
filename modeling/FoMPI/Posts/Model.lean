import FoMPI.RmaNotify.Empty

/-!
# What notified transfers post

`foMPI_Put_notify` and `foMPI_Get_notify` once more, down to the descriptors that
`ugni_simple_rma` posts: sizes keep their sign, and a descriptor names the registration
of its local buffer. A routine returns the functions that it calls, in their order.
-/
namespace FoMPI.Posts
open FoMPI.Dcache FoMPI.Foundation FoMPI.RmaNotify FoMPI.Window
open FoMPI.Notif (anyTag)

/-- What a function is told to move; its size is an `MPI_Aint`. -/
structure Span where
  originOffset : ℤ
  targetOffset : ℤ
  size : ℤ

namespace Span

/-- `(uint64_t) size` -/
def length (x : Span) : ℕ := (x.size % 18446744073709551616).toNat

def ofChunk (c : Chunk) : Span := ⟨c.originOffset, c.targetOffset, c.size⟩

def chunk (x : Span) : Chunk := ⟨x.originOffset, x.targetOffset, x.size.toNat⟩

end Span

/-- The fields of `gni_post_descriptor_t` that the posted operation depends on. -/
structure Descriptor where
  operation : Operation
  /-- `GNI_PostRdma` is used, and not `GNI_PostFma`. -/
  rdma : Bool
  localAddr : ℤ
  /-- What the local handle was registered for; `none` is the handle with two zeros. -/
  localMemHndl : Option Segment
  remoteAddr : ℤ
  length : ℕ
  /-- `cq_mode` has `GNI_CQMODE_REMOTE_EVENT`. -/
  remoteEvent : Bool

/-- `ugni_simple_rma`: the descriptor, and `seg_needs_unregister`. -/
def ugniSimpleRma (operation : Operation) (x : Span) (srcSegPtr : Option Segment) (tag : ℤ) : Descriptor × Bool :=
  let localMemHndl : Option Segment × Bool :=
    if x.size < rdmaThreshold ∧ operation = .put then (none, false)
    else
      match srcSegPtr.filter fun s => s.hasAddr x.originOffset with
      | some s => (some s, false)
      | none => (some ⟨x.originOffset, x.length⟩, true)
  (⟨operation, ¬x.size < rdmaThreshold, x.originOffset, localMemHndl.1, x.targetOffset, x.length, tag ≠ anyTag⟩,
    localMemHndl.2)

inductive Call
  /-- `xpmem_simple_put` or `xpmem_simple_get` -/
  | xpmemSimple (operation : Operation) (x : Span)
  /-- `dmapp_simple_put` or `dmapp_simple_get` -/
  | dmappSimple (operation : Operation) (x : Span)
  | winFlushAll
  /-- `ugni_simple_put` or `ugni_simple_get` -/
  | ugniSimple (operation : Operation) (x : Span) (srcSegPtr : Option Segment) (tag : ℤ)
  /-- `__sync_synchronize` -/
  | syncSynchronize
  | xpmemNotifPush (rank tag : BitVec 16)

namespace Call

/-- What a call does to the network. -/
def run (W : Win) (net : Net) : Call → Net
  | xpmemSimple operation x => net.xpmemSimple operation x.chunk
  | dmappSimple operation x => net.dmappSimple operation x.chunk
  | winFlushAll => net.winFlushAll
  | ugniSimple operation x srcSegPtr tag => net.ugniSimple W operation x.chunk srcSegPtr tag
  | syncSynchronize => net.emit .fence
  | xpmemNotifPush rank tag => net.emit (.push rank tag)

def posted : Call → List Descriptor
  | ugniSimple operation x srcSegPtr tag => [(ugniSimpleRma operation x srcSegPtr tag).1]
  | _ => []

end Call

/-- The descriptors that a routine posts. -/
def posted (calls : List Call) : List Descriptor := calls.flatMap Call.posted

section Routines
variable {ι : Type*} [DecidableEq ι] (D : Datatypes ι) (W : Win) (layout : Layout ι) (a : Request ι) (fuel : ℕ)

/-- `origin_count * origin_type_size`, an `int`, on the fast path for intrinsic datatypes. -/
def fastPath : Option ℤ :=
  if W.locality.dynamic then none
  else if a.origin.1 = a.target.1 then
    (D.intrinsic a.origin.1).map fun k => Int.bmod (a.origin.2 * k.size) 4294967296
  else none

/-- `communication_and_datatype_handling` -/
def communicationAndDatatypeHandling (commfunc : Span → Call) (cache : GlobInfo ι) :
    Option (GlobInfo ι × List Call) :=
  let t := a.targetOffset W
  match fastPath D W a with
  | some size => some (cache, [commfunc ⟨a.originAddr, t, size⟩])
  | none => do
    let (blocks, cache) ← cache.transfer layout a.origin a.target fuel
    (a.piecesOf D W blocks).map fun pieces =>
      (cache, pieces.map fun c => commfunc (.ofChunk (Chunk.place a.originAddr t c)))

/-- A transfer without a notification, and a put of nothing with it. -/
def staged (operation : Operation) (x : Span) (srcSegPtr : Option Segment) (tag : ℤ) : List Call :=
  [.dmappSimple operation x, .winFlushAll, .ugniSimple .put ⟨x.originOffset, x.targetOffset, 0⟩ srcSegPtr tag]

/-- The loop on the blocks of one region. -/
def notifyBlocks (operation : Operation) (direct : Span → Bool) (srcSegPtr : Option Segment) (tag : ℤ) :
    ℕ → List Chunk → List Call
  | _, [] => []
  | countBlocks, c :: cs =>
    if tag ≠ anyTag then
      if cs = [] then
        if countBlocks = 0 ∧ direct (.ofChunk c) then [.ugniSimple operation (.ofChunk c) srcSegPtr tag]
        else staged operation (.ofChunk c) srcSegPtr tag
      else .dmappSimple operation (.ofChunk c) :: notifyBlocks operation direct srcSegPtr tag (countBlocks + 1) cs
    else .dmappSimple operation (.ofChunk c) :: notifyBlocks operation direct srcSegPtr tag (countBlocks + 1) cs

/-- What the put and the get routine have in common. -/
def ugniNotifyOnly (operation : Operation) (direct : Span → Bool) (srcSegPtr : Option Segment) (t : ℤ)
    (cache : GlobInfo ι) : Option (GlobInfo ι × List Call) :=
  match fastPath D W a with
  | some size =>
    let x : Span := ⟨a.originAddr, t, size⟩
    some (cache, if direct x then [.ugniSimple operation x srcSegPtr a.tag] else staged operation x srcSegPtr a.tag)
  | none => do
    let (blocks, cache) ← cache.transfer layout a.origin a.target fuel
    if a.oneRegion D W then
      return (cache, notifyBlocks operation direct srcSegPtr a.tag 0 (blocks.map (Chunk.place a.originAddr t)))
    else
      (splitBlocks W.remoteMemRegions t blocks).map fun pieces =>
        let calls := pieces.map fun c => Call.dmappSimple operation (.ofChunk (Chunk.place a.originAddr t c))
        if a.tag ≠ anyTag then
          (cache, calls ++ [.winFlushAll,
            .ugniSimple .put (.ofChunk (Chunk.place a.originAddr t (afterLast blocks))) srcSegPtr a.tag])
        else (cache, calls)

/-- The size is below `_foMPI_MAX_RDMA_TRANFER_LENGHT`. -/
def putDirect (x : Span) : Bool := x.size < maxRdmaTransferLength

/-- Both addresses are aligned as well, and there is a source segment. -/
def getDirect (srcSegPtr : Option Segment) (x : Span) : Bool :=
  isAligned x.originOffset && isAligned x.targetOffset && x.size < maxRdmaTransferLength && srcSegPtr.isSome

/-- `communication_and_datatype_handling_ugni_put_notify_only` -/
def communicationAndDatatypeHandlingUgniPutNotifyOnly : GlobInfo ι → Option (GlobInfo ι × List Call) :=
  ugniNotifyOnly D W layout a fuel .put putDirect (a.putSrcSeg D W) (a.targetOffset W)

/-- `communication_and_datatype_handling_ugni_get_notify_only` -/
def communicationAndDatatypeHandlingUgniGetNotifyOnly : GlobInfo ι → Option (GlobInfo ι × List Call) :=
  ugniNotifyOnly D W layout a fuel .get (getDirect (a.getSrcSeg D W)) (a.getSrcSeg D W) (a.getTargetOffset W)

/-- `_foMPI_Rma_notify` -/
def rmaNotify (cache : GlobInfo ι) : Option (GlobInfo ι × List Call) :=
  if W.locality.viaXpmem a.targetRank then do
    let (cache, calls) ← communicationAndDatatypeHandling D W layout a fuel (.xpmemSimple a.operation) cache
    return (cache, calls ++ [.syncSynchronize,
      .xpmemNotifPush (BitVec.ofInt 16 W.commrank) (BitVec.ofInt 16 a.tag)])
  else
    match a.operation with
    | .get => communicationAndDatatypeHandlingUgniGetNotifyOnly D W layout a fuel cache
    | .put => communicationAndDatatypeHandlingUgniPutNotifyOnly D W layout a fuel cache

/-- `foMPI_Put` and `foMPI_Get` -/
def rma (cache : GlobInfo ι) : Option (GlobInfo ι × List Call) :=
  if a.origin.2 = 0 ∨ a.target.2 = 0 then some (cache, [])
  else if W.locality.viaXpmem a.targetRank then
    communicationAndDatatypeHandling D W layout a fuel (.xpmemSimple a.operation) cache
  else
    communicationAndDatatypeHandling D W layout a fuel (.dmappSimple a.operation) cache

/-- `foMPI_Put_notify` and `foMPI_Get_notify` -/
def notify (cache : GlobInfo ι) : Option (GlobInfo ι × List Call) :=
  if a.tag = anyTag then rma D W layout a fuel cache else rmaNotify D W layout a fuel cache

end Routines

end FoMPI.Posts
