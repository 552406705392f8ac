import FoMPI.Combine.Entries

/-!
# What a process has outstanding

The calls of one process on its windows, as the statements they come down to: implicit
dmapp operations with `nbi_counter` of the window, uGNI posts with `counter_ugni_nbi` of
the communicator that all windows share. A flush is the loop on the completion queue
and the wait that depends on `nbi_counter`. The network completes operations at any
time between two statements; a post that completes leaves one event.
-/
namespace FoMPI.Flush
open FoMPI.Combine FoMPI.Comm FoMPI.Dcache FoMPI.Foundation FoMPI.RmaNotify FoMPI.Window
open FoMPI.Notif (anyTag)

universe u

/-- An operation that `dmapp_gsync_wait` waits for. -/
inductive Implicit
  /-- `dmapp_put_nbi` or `dmapp_get_nbi` -/
  | move (operation : Operation) (c : Chunk)
  /-- `dmapp_aadd_qw_nbi` or one of its relatives -/
  | atomic (x : Atomic)
  /-- `dmapp_afadd_qw_nbi` -/
  | afadd (resultAddr targetAddr originAddr : ℤ)
  deriving DecidableEq

/-- A transaction posted to a NIC. -/
structure Post where
  operation : Operation
  chunk : Chunk
  eventId : BitVec 32
  remoteEvent : Bool
  deriving DecidableEq

/-- What a call may wait for in a busy loop, until another process gives it. -/
inductive Wait
  /-- A free slot of the notification queue of the target, in `xpmem_notif_push`. -/
  | room
  /-- `xpmem_notif_lock` -/
  | notifLock
  /-- `foMPI_Set_window_mutex` -/
  | windowMutex
  /-- `dynamic_mutex` of the target, in `get_dynamic_window_regions` -/
  | dynamicMutex
  deriving DecidableEq

inductive Instr (ω : Type u)
  | dmapp (win : ω) (op : Implicit)
  /-- `win->nbi_counter++` -/
  | count (win : ω)
  /-- `dmapp_gsync_wait` -/
  | gsyncWait
  /-- `win->nbi_counter = 0` -/
  | clear (win : ω)
  /-- `if (win->nbi_counter > 0)`, with the two statements above under it. -/
  | gsyncCounted (win : ω)
  /-- `_foMPI_Comm_flush_all_internal`: `while (communicator->counter_ugni_nbi > 0)`. -/
  | drain
  /-- The same under `if (comm->counter_ugni_nbi >= comm->number_of_cq_entries)`. -/
  | drainFull
  /-- `comm->counter_ugni_nbi++` -/
  | takeDescriptor
  /-- `GNI_PostFma` or `GNI_PostRdma` -/
  | post (win : ω) (p : Post)
  /-- `__sync_synchronize` -/
  | fence
  /-- A copy through shared memory. -/
  | copy (operation : Operation) (c : Chunk)
  /-- `xpmem_notif_push` -/
  | push (source tag : BitVec 16)
  | await (w : Wait)
  /-- `foMPI_Win_flush_all` returns. -/
  | flushed (win : ω)
  deriving DecidableEq

abbrev Program (ω : Type u) := List (Instr ω)

variable {ω ι : Type u} [DecidableEq ι]

section Transfers
variable (win : ω)

/-- `dmapp_simple_put` and `dmapp_simple_get`. -/
def dmappSimple (operation : Operation) (c : Chunk) : Program ω :=
  (if c.size / 16 ≠ 0 then
    [.dmapp win (.move operation ⟨c.originOffset, c.targetOffset, c.size / 16 * 16⟩), .count win]
  else []) ++
  (if nelementsModulo c.size ≠ 0 then
    [.dmapp win (.move operation ⟨c.originOffset + offsetModulo c.size,
      c.targetOffset + offsetModulo c.size, nelementsModulo c.size⟩), .count win]
  else [])

/-- `foMPI_Win_flush_all`. -/
def winFlushAll : Program ω := [.drain, .fence, .gsyncCounted win, .flushed win]

variable (W : Win)

/-- `ugni_simple_rma`, which begins with `_foMPI_Comm_get_ugni_data_descriptor`. -/
def ugniSimple (operation : Operation) (c : Chunk) (srcSeg : Option Segment) (tag : ℤ) : Program ω :=
  let id := encodeID (BitVec.ofInt 16 W.commrank) (BitVec.ofInt 16 tag)
  let segNeedsUnregister :=
    if c.size < rdmaThreshold ∧ operation = .put then false
    else !srcSeg.any fun s => s.hasAddr c.originOffset
  [.drainFull, .takeDescriptor, .post win ⟨operation, c, id, tag ≠ anyTag⟩] ++
    if segNeedsUnregister then winFlushAll win else []

/-- The communication function of a transfer: `xpmem_simple_put`, `xpmem_simple_get` or those of
dmapp. -/
def simple (targetRank : ℤ) (operation : Operation) (c : Chunk) : Program ω :=
  if W.locality.viaXpmem targetRank then [.copy operation c] else dmappSimple win operation c

/-- `get_dynamic_window_regions`, which a dynamic window calls first. -/
def getDynamicWindowRegions : Program ω := if W.locality.dynamic then [.await .dynamicMutex] else []

variable (D : Datatypes ι) (layout : Layout ι) (fuel garbage : ℕ)

/-- `communication_and_datatype_handling` with one of these. -/
def transfer (a : Args ι) (cache : GlobInfo ι) : Option (GlobInfo ι × Program ω) :=
  (Comm.communicationAndDatatypeHandling D W a layout fuel garbage cache).map fun r =>
    (r.1, getDynamicWindowRegions W ++
      r.2.flatMap fun i => simple win W a.targetRank a.operation i.chunk)

end Transfers

section Notified
variable (win : ω) (W : Win) (D : Datatypes ι) (layout : Layout ι) (a : Args ι)

/-- The way over the network for one chunk: with the notification, or in front of it. -/
def notifyChunk (operation : Operation) (direct : Chunk → Bool) (srcSeg : Option Segment) (tag : ℤ)
    (c : Chunk) : Program ω :=
  if direct c then ugniSimple win W operation c srcSeg tag
  else
    dmappSimple win operation c ++ winFlushAll win ++
      ugniSimple win W .put ⟨c.originOffset, c.targetOffset, 0⟩ srcSeg tag

/-- The loop on the blocks of one region. -/
def notifyBlocks (operation : Operation) (direct : Chunk → Bool) (srcSeg : Option Segment) (tag : ℤ) :
    ℕ → List Chunk → Program ω
  | _, [] => []
  | countBlocks, c :: cs =>
    if tag ≠ anyTag then
      if cs = [] then
        if countBlocks = 0 ∧ direct c then ugniSimple win W operation c srcSeg tag
        else
          dmappSimple win operation c ++ winFlushAll win ++
            ugniSimple win W .put ⟨c.originOffset, c.targetOffset, 0⟩ srcSeg tag
      else
        dmappSimple win operation c ++ notifyBlocks operation direct srcSeg tag (countBlocks + 1) cs
    else dmappSimple win operation c ++ notifyBlocks operation direct srcSeg tag (countBlocks + 1) cs

/-- What the put and the get routine of uGNI have in common. -/
def ugniNotifyOnly (operation : Operation) (direct : Chunk → Bool) (srcSeg : Option Segment) (t : ℤ)
    (cache : GlobInfo ι) : Option (GlobInfo ι × Program ω) :=
  match fastPath D W a with
  | some size => some (cache, notifyChunk win W operation direct srcSeg a.tag ⟨a.originAddr, t, size⟩)
  | none => do
    let (blocks, cache) ← cache.transfer layout a.origin a.target (calls layout a.origin a.target)
    if oneRegion D W a then
      return (cache, getDynamicWindowRegions W ++
        notifyBlocks win W operation direct srcSeg a.tag 0 (blocks.map (Chunk.place a.originAddr t)))
    else
      (splitBlocks W.remoteMemRegions t blocks).map fun pieces =>
        (cache, getDynamicWindowRegions W ++
          ((pieces.map (Chunk.place a.originAddr t)).flatMap (dmappSimple win operation)) ++
          if a.tag ≠ anyTag then
            winFlushAll win ++
              ugniSimple win W .put (Chunk.place a.originAddr t (afterLast blocks)) srcSeg a.tag
          else [])

/-- The end of `_foMPI_Rma_notify` on the node. -/
def pushNotification (tag : ℤ) : Program ω :=
  [.fence, .await .room, .await .notifLock,
    .push (BitVec.ofInt 16 W.commrank) (BitVec.ofInt 16 tag)]

/-- `_foMPI_Rma_notify`. -/
def rmaNotify (fuel garbage : ℕ) (cache : GlobInfo ι) : Option (GlobInfo ι × Program ω) :=
  if W.locality.viaXpmem a.targetRank then
    (transfer win W D layout fuel garbage a cache).map fun r => (r.1, r.2 ++ pushNotification W a.tag)
  else
    match a.operation with
    | .get =>
      ugniNotifyOnly win W D layout a .get (getDirect (getSrcSeg D W a)) (getSrcSeg D W a)
        (getTargetOffset W a) cache
    | .put => ugniNotifyOnly win W D layout a .put putDirect (putSrcSeg D W a) (targetOffset W a) cache

/-- `foMPI_Put_notify` and `foMPI_Get_notify`; with the wildcard they are `foMPI_Put` and
`foMPI_Get`. -/
def notified (fuel garbage : ℕ) (cache : GlobInfo ι) : Option (GlobInfo ι × Program ω) :=
  if a.tag = anyTag then transfer win W D layout fuel garbage a cache
  else rmaNotify win W D layout a fuel garbage cache

/-- A notified call with a count of zero and equal intrinsic datatypes, on a window that is not
dynamic. -/
def notifiedNothing (operation : Operation) (originAddr t : ℤ) (targetRank tag : ℤ) : Program ω :=
  if tag = anyTag then []
  else if W.locality.viaXpmem targetRank then
    .copy operation ⟨originAddr, t, 0⟩ :: pushNotification W tag
  else
    match operation with
    | .get => notifyChunk win W .get (getDirect (some W.ownSeg)) (some W.ownSeg) tag ⟨originAddr, t, 0⟩
    | .put =>
      notifyChunk win W .put putDirect (if W.ownSeg.hasAddr originAddr then some W.ownSeg else none) tag
        ⟨originAddr, t, 0⟩

end Notified

section Accumulates
variable (win : ω) (W : Win) (D : Types ι) (layout : Layout ι) (C : Combine.Call ι) (fuel garbage : ℕ)

/-- `accumulate_sum_8byte` and its relatives. -/
def accumulate8byte (i : Invocation) : Program ω :=
  ((Comm.accumulate8byte C.op i).map fun x => .dmapp win (.atomic x)) ++ [.count win]

/-- The hardware paths of `foMPI_Accumulate`. -/
def hardware (cache : GlobInfo ι) : Option (GlobInfo ι × Program ω) :=
  if origin : 1 ≤ C.origin.2 then
    if target : 1 ≤ C.target.2 then
      let a : Args ι :=
        ⟨.put, C.originAddr, C.origin, C.targetRank, C.targetDisp, C.target, anyTag, origin, target⟩
      (hardwareCalls D.toDatatypes W a layout C.op fuel garbage cache).map fun r =>
        (r.1, r.2.flatMap (accumulate8byte win C))
    else none
  else none

/-- A transfer between a buffer and the target. -/
def move (operation : Operation) (addr : ℤ) (key : Key ι) (cache : GlobInfo ι) :
    Option (GlobInfo ι × Program ω) :=
  if h : 1 ≤ key.2 ∧ 1 ≤ C.target.2 then
    transfer win W D.toDatatypes layout fuel garbage
      ⟨operation, addr, key, C.targetRank, C.targetDisp, C.target, anyTag, h.1, h.2⟩ cache
  else none

/-- A put that is waited for. -/
def putBack (addr : ℤ) (key : Key ι) (cache : GlobInfo ι) : Option (GlobInfo ι × Program ω) :=
  (move win W D layout C fuel garbage .put addr key cache).map fun r =>
    (r.1, r.2 ++ [.gsyncWait, .clear win])

/-- The mutex path of `foMPI_Accumulate`, on elements of `T`. -/
def accumulateSoftware (T : BasicType) (cache : GlobInfo ι) :
    Option (GlobInfo ι × Program ω) := do
  let key : Key ι := (D.named T, elementsInBuffer D C T)
  let (cache, got) ← move win W D layout C fuel garbage .get C.bufferAddr key cache
  let (_, cache) ← cache.transfer layout key C.origin (calls layout key C.origin)
  let (cache, put) ← putBack win W D layout C fuel garbage C.bufferAddr key cache
  return (cache, [.await .windowMutex] ++ got ++ [.gsyncWait] ++ put)

/-- `foMPI_Accumulate`. -/
def accumulate (cache : GlobInfo ι) : Option (GlobInfo ι × Program ω) :=
  if C.origin.2 = 0 ∨ C.target.2 = 0 then some (cache, [])
  else if C.origin.1 = C.target.1 ∧ C.target.1 = D.named (.integer .int64) ∧ C.op = .sum then
    hardware win W D layout C fuel garbage cache
  else if C.origin.1 = C.target.1 ∧
      (C.origin.1 = D.named .double ∨ C.target.1 = D.named (.integer .int64)) ∧
      (C.op = .bor ∨ C.op = .band ∨ C.op = .bxor) then
    hardware win W D layout C fuel garbage cache
  else if C.op = .replace then move win W D layout C fuel garbage .put C.originAddr C.origin cache
  else
    match D.checkBasicType C.origin.1, D.checkBasicType C.target.1 with
    | none, _ => some (cache, [])
    | some _, none => some (cache, [])
    | some T, some T' =>
      if T ≠ T' then some (cache, []) else accumulateSoftware win W D layout C fuel garbage T cache

/-- `foMPI_Get_accumulate` behind the wait for its get. -/
def operateAndPut (cache : GlobInfo ι) : Option (GlobInfo ι × Program ω) :=
  if C.op = .noOp then some (cache, [])
  else if C.op = .replace then putBack win W D layout C fuel garbage C.originAddr C.origin cache
  else
    match D.checkBasicType C.origin.1 with
    | none => none
    | some T => do
      let (_, cache) ← cache.transfer layout C.result C.origin (calls layout C.result C.origin)
      putBack win W D layout C fuel garbage C.bufferAddr (D.named T, elementsInBuffer D C T) cache

/-- The fast path of `foMPI_Get_accumulate`. -/
def afaddAll : Program ω :=
  ((List.range (fastElements W C)).map fun i : ℕ => .dmapp win (.afadd (C.resultAddr + i * 8)
    (W.base + C.targetDisp * W.dispUnit + i * 8) (C.originAddr + i * 8))) ++ [.count win]

/-- `foMPI_Get_accumulate`. -/
def getAccumulate (cache : GlobInfo ι) : Option (GlobInfo ι × Program ω) :=
  if C.target.2 = 0 ∨ C.result.2 = 0 then some (cache, [])
  else if takesFastPath W D C then some (cache, afaddAll win W C)
  else do
    let (cache, got) ← move win W D layout C fuel garbage .get C.resultAddr C.result cache
    let (cache, rest) ← operateAndPut win W D layout C fuel garbage cache
    return (cache, [.await .windowMutex] ++ got ++ [.gsyncWait] ++ rest)

end Accumulates

/-- A call with its arguments. -/
inductive Entry (ι : Type u)
  /-- `foMPI_Put` or `foMPI_Get` -/
  | transfer (a : Args ι)
  | accumulate (C : Combine.Call ι)
  | getAccumulate (C : Combine.Call ι)
  /-- `foMPI_Put_notify` or `foMPI_Get_notify` -/
  | notified (a : Args ι)
  | notifiedNothing (operation : Operation) (originAddr t : ℤ) (targetRank tag : ℤ)
  | flushAll

/-- The statements of a call on the window `win`. A call that gets stuck has none, and `fuel` and
`garbage` stand for what a search for attached memory may find. -/
def Entry.program (win : ω) (W : Win) (D : Types ι) (layout : Layout ι) (fuel garbage : ℕ)
    (cache : GlobInfo ι) : Entry ι → Option (GlobInfo ι × Program ω)
  | .transfer a => Flush.transfer win W D.toDatatypes layout fuel garbage a cache
  | .accumulate C => Flush.accumulate win W D layout C fuel garbage cache
  | .getAccumulate C => Flush.getAccumulate win W D layout C fuel garbage cache
  | .notified a => Flush.notified win W D.toDatatypes layout a fuel garbage cache
  | .notifiedNothing operation originAddr t targetRank tag =>
    some (cache, Flush.notifiedNothing win W operation originAddr t targetRank tag)
  | .flushAll => some (cache, winFlushAll win)

/-- `_foMPI_NUM_SRC_CQ_ENTRIES`. -/
def numberOfCqEntries : ℕ := 1000

/-- A process and its network interface: the rest of the call under way, the counters, the operations
that are not complete and the completion events that were not read. `counted` and `increments` are
how often `nbi_counter` of a window was incremented since it was set to zero, and since the last
flush of the window. `blocked` are the waits that other processes do not let end now. -/
structure State (ω ι : Type u) where
  cache : GlobInfo ι
  todo : Program ω
  nbiCounter : ω → BitVec 32
  counterUgniNbi : ℕ
  dmapp : List (ω × Implicit)
  posts : List (ω × Post)
  cq : List (ω × Post)
  counted : ω → ℕ
  increments : ω → ℕ
  blocked : Wait → Bool

inductive Action (ω ι : Type u)
  | call (win : ω) (W : Win) (layout : Layout ι) (fuel garbage : ℕ) (e : Entry ι)
  | run
  | dmappDone (i : ℕ)
  | ugniDone (i : ℕ)
  /-- Other processes take and give what calls wait for. -/
  | others (blocked : Wait → Bool)

variable [DecidableEq ω]

def State.init (cache : GlobInfo ι) : State ω ι :=
  ⟨cache, [], fun _ => 0, 0, [], [], [], fun _ => 0, fun _ => 0, fun _ => false⟩

/-- The next statement, with `rest` behind it. A drain that finds no event polls again, and so does a
wait that is blocked. -/
def State.perform (s : State ω ι) (rest : Program ω) : Instr ω → Option (State ω ι)
  | .dmapp win op => some { s with todo := rest, dmapp := s.dmapp ++ [(win, op)] }
  | .count win => some { s with
      todo := rest
      nbiCounter := Function.update s.nbiCounter win (s.nbiCounter win + 1)
      counted := Function.update s.counted win (s.counted win + 1)
      increments := Function.update s.increments win (s.increments win + 1) }
  | .gsyncWait => some { s with todo := rest, dmapp := [] }
  | .clear win => some { s with
      todo := rest
      nbiCounter := Function.update s.nbiCounter win 0
      counted := Function.update s.counted win 0 }
  | .gsyncCounted win => some { s with
      todo := if s.nbiCounter win ≠ 0 then .gsyncWait :: .clear win :: rest else rest }
  | .drain =>
    if s.counterUgniNbi = 0 then some { s with todo := rest }
    else
      match s.cq with
      | [] => none
      | _ :: cq => some { s with cq := cq, counterUgniNbi := s.counterUgniNbi - 1 }
  | .drainFull => some { s with
      todo := if numberOfCqEntries ≤ s.counterUgniNbi then .drain :: rest else rest }
  | .takeDescriptor => some { s with todo := rest, counterUgniNbi := s.counterUgniNbi + 1 }
  | .post win p => some { s with todo := rest, posts := s.posts ++ [(win, p)] }
  | .fence | .copy _ _ | .push _ _ => some { s with todo := rest }
  | .await w => if s.blocked w then none else some { s with todo := rest }
  | .flushed win => some { s with todo := rest, increments := Function.update s.increments win 0 }

/-- The process starts a call when the one before has returned. -/
def step (D : Types ι) (s : State ω ι) : Action ω ι → Option (State ω ι)
  | .call win W layout fuel garbage e =>
    match s.todo with
    | [] => (e.program win W D layout fuel garbage s.cache).map fun r =>
        { s with cache := r.1, todo := r.2 }
    | _ :: _ => none
  | .run =>
    match s.todo with
    | [] => none
    | i :: rest => s.perform rest i
  | .dmappDone i => if i < s.dmapp.length then some { s with dmapp := s.dmapp.eraseIdx i } else none
  | .ugniDone i => s.posts[i]?.map fun p =>
      { s with posts := s.posts.eraseIdx i, cq := s.cq ++ [p] }
  | .others blocked => some { s with blocked := blocked }

end FoMPI.Flush
