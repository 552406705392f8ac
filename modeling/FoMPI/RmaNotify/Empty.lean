import FoMPI.Dcache.Superposition
import FoMPI.RmaNotify.Traffic

/-!
# Notified transfers of nothing

The entry points with counts of any size. For counts of at least one they are those of
the model of notified transfers. With counts of zero only the fast path comes to an end:
every other path asks the datatype cache for a block of an empty list.
-/
namespace FoMPI.RmaNotify
open FoMPI.Dcache FoMPI.Foundation FoMPI.Notif FoMPI.Window

variable {ι : Type*}

/-- The arguments of a call, for a target other than `MPI_PROC_NULL`. -/
structure Request (ι : Type*) where
  operation : Operation
  originAddr : ℤ
  origin : Key ι
  targetRank : ℤ
  targetDisp : ℤ
  target : Key ι
  tag : ℤ

def Args.request (a : Args ι) : Request ι :=
  ⟨a.operation, a.originAddr, a.origin, a.targetRank, a.targetDisp, a.target, a.tag⟩

namespace Request

variable [DecidableEq ι] (D : Datatypes ι) (W : Win) (a : Request ι)

/-- `origin_count * origin_type_size` on the fast path for intrinsic datatypes. -/
def fastPath : Option ℕ :=
  if W.locality.dynamic then none
  else if a.origin.1 = a.target.1 then
    (D.intrinsic a.origin.1).map fun k => (Int.bmod (a.origin.2 * k.size) 4294967296).toNat
  else none

def targetOffset : ℤ :=
  if W.locality.dynamic then a.targetDisp
  else if W.locality.onnodeRankGlobalToLocal a.targetRank ≠ -1 then
    W.xpmemBase + a.targetDisp * W.dispUnit
  else W.base + a.targetDisp * W.dispUnit

def oneRegion : Bool :=
  !W.locality.dynamic ||
    (wholeRegion W.remoteMemRegions (a.targetOffset W)
      ((a.target.2 - 1) * D.extent a.target.1 + D.trueExtent a.target.1)).isSome

def sourceRegion : Option Segment :=
  (wholeRegion W.winDynamicMemRegions a.originAddr
    ((a.origin.2 - 1) * D.extent a.origin.1 + D.trueExtent a.origin.1)).map segmentOf

def piecesOf (blocks : List Chunk) : Option (List Chunk) :=
  if a.oneRegion D W then some blocks
  else splitBlocks W.remoteMemRegions (a.targetOffset W) blocks

section Routines

variable (layout : Layout ι) (fuel : ℕ)

/-- `communication_and_datatype_handling`, for at most `fuel` blocks. -/
def communicationAndDatatypeHandling (commfunc : Net → Chunk → Net) (cache : GlobInfo ι) (net : Net) :
    Option (GlobInfo ι × Net) :=
  let t := a.targetOffset W
  match a.fastPath D W with
  | some size => some (cache, commfunc net ⟨a.originAddr, t, size⟩)
  | none => do
    let (blocks, cache) ← cache.transfer layout a.origin a.target fuel
    (a.piecesOf D W blocks).map fun pieces =>
      (cache, (pieces.map (Chunk.place a.originAddr t)).foldl commfunc net)

/-- What the uGNI put and get routine have in common. -/
def ugniNotifyOnly (operation : Operation) (direct : Chunk → Bool) (srcSeg : Option Segment) (t : ℤ)
    (cache : GlobInfo ι) (net : Net) : Option (GlobInfo ι × Net) :=
  match a.fastPath D W with
  | some size =>
    let c : Chunk := ⟨a.originAddr, t, size⟩
    if direct c then some (cache, net.ugniSimple W operation c srcSeg a.tag)
    else
      some (cache, (net.dmappSimple operation c).winFlushAll.ugniSimple W .put
        ⟨a.originAddr, t, 0⟩ srcSeg a.tag)
  | none => do
    let (blocks, cache) ← cache.transfer layout a.origin a.target fuel
    if a.oneRegion D W then
      return (cache, notifyBlocks W operation direct srcSeg a.tag 0
        (blocks.map (Chunk.place a.originAddr t)) net)
    else
      (splitBlocks W.remoteMemRegions t blocks).map fun pieces =>
        let net := net.dmappAll operation (pieces.map (Chunk.place a.originAddr t))
        if a.tag ≠ anyTag then
          (cache, net.winFlushAll.ugniSimple W .put
            (Chunk.place a.originAddr t (afterLast blocks)) srcSeg a.tag)
        else (cache, net)

def putSrcSeg : Option Segment :=
  if W.locality.dynamic then a.sourceRegion D W
  else if W.ownSeg.hasAddr a.originAddr then some W.ownSeg else none

def getSrcSeg : Option Segment :=
  if W.locality.dynamic then a.sourceRegion D W else some W.ownSeg

def getTargetOffset : ℤ :=
  if W.locality.dynamic then a.targetDisp
  else if a.tag = anyTag ∧ W.locality.onnodeRankGlobalToLocal a.targetRank ≠ -1 then
    W.xpmemBase + a.targetDisp * W.dispUnit
  else W.base + a.targetDisp * W.dispUnit

/-- `_foMPI_Rma_notify`. -/
def rmaNotify (cache : GlobInfo ι) (net : Net) : Option (GlobInfo ι × Net) :=
  if W.locality.viaXpmem a.targetRank then do
    let (cache, net) ← a.communicationAndDatatypeHandling D W layout fuel
      (fun net c => net.xpmemSimple a.operation c) cache net
    return (cache, (net.emit .fence).emit
      (.push (BitVec.ofInt 16 W.commrank) (BitVec.ofInt 16 a.tag)))
  else
    match a.operation with
    | .get => a.ugniNotifyOnly D W layout fuel .get (getDirect (a.getSrcSeg D W)) (a.getSrcSeg D W)
        (a.getTargetOffset W) cache net
    | .put => a.ugniNotifyOnly D W layout fuel .put putDirect (a.putSrcSeg D W) (a.targetOffset W) cache net

/-- `foMPI_Put` and `foMPI_Get`. -/
def rma (cache : GlobInfo ι) (net : Net) : Option (GlobInfo ι × Net) :=
  if a.origin.2 = 0 ∨ a.target.2 = 0 then some (cache, net)
  else if W.locality.viaXpmem a.targetRank then
    a.communicationAndDatatypeHandling D W layout fuel (fun net c => net.xpmemSimple a.operation c) cache net
  else
    a.communicationAndDatatypeHandling D W layout fuel (fun net c => net.dmappSimple a.operation c) cache net

/-- `foMPI_Put_notify` and `foMPI_Get_notify`. -/
def notify (cache : GlobInfo ι) (net : Net) : Option (GlobInfo ι × Net) :=
  if a.tag = anyTag then a.rma D W layout fuel cache net else a.rmaNotify D W layout fuel cache net

end Routines

/-- The fast path is taken. -/
def Fast : Prop :=
  W.locality.dynamic = false ∧ a.origin.1 = a.target.1 ∧ (D.intrinsic a.origin.1).isSome

end Request

/-- For counts of at least one the call is that of the model of notified transfers. -/
theorem rmaNotify_request [DecidableEq ι] (D : Datatypes ι) (W : Win) (a : Args ι) (layout : Layout ι)
    (cache : GlobInfo ι) (net : Net) :
    a.request.rmaNotify D W layout (calls layout a.origin a.target) cache net =
      rmaNotify D W a layout cache net := by
  rw [Request.rmaNotify, rmaNotify]
  rfl

/-- The bytes that an operation moves. -/
def NetOp.moves : NetOp → List Move
  | .dmapp operation c | .copy operation c | .post operation c _ _ => RmaNotify.moves operation c
  | .gsyncWait | .fence | .push _ _ => []

def moved (ops : List NetOp) : List Move := ops.flatMap NetOp.moves

section Nothing

variable {net : Net} {operation : Operation} {c : Chunk} {W : Win} {srcSeg : Option Segment} {tag : ℤ}
  {o t : ℤ}

@[simp] theorem moved_emit (net : Net) (op : NetOp) : moved (net.emit op).ops = moved net.ops ++ op.moves := by
  simp [moved, Net.emit]

theorem moved_winFlushAll (net : Net) : moved net.winFlushAll.ops = moved net.ops := by
  rw [Net.winFlushAll]
  dsimp only
  split
  · change moved ((net.emit .fence).emit .gsyncWait).ops = _
    simp [NetOp.moves]
  · simp [NetOp.moves]

theorem moved_flush_if (net : Net) (p : Prop) [Decidable p] :
    moved (if p then net.winFlushAll else net).ops = moved net.ops := by
  split
  · exact moved_winFlushAll net
  · rfl

theorem moved_ugniSimple (net : Net) (operation : Operation) (c : Chunk) :
    moved (net.ugniSimple W operation c srcSeg tag).ops = moved net.ops ++ moves operation c := by
  rw [Net.ugniSimple, moved_flush_if, moved_emit]
  rfl

/-- DMAPP is not called for no bytes. -/
theorem dmappSimple_zero (net : Net) (operation : Operation) : net.dmappSimple operation ⟨o, t, 0⟩ = net := by
  have rest : nelementsModulo 0 = 0 := by decide
  simp [Net.dmappSimple, rest]

end Nothing

namespace Request

variable [DecidableEq ι] {D : Datatypes ι} {W : Win} {a : Request ι} {layout : Layout ι} {cache : GlobInfo ι}
  {net : Net} {fuel : ℕ}

theorem fastPath_fast (fast : a.Fast D W) (zero : a.origin.2 = 0) : a.fastPath D W = some 0 := by
  obtain ⟨static, same, intrinsic⟩ := fast
  obtain ⟨k, hk⟩ := Option.isSome_iff_exists.mp intrinsic
  rw [fastPath, if_neg (by simp [static]), if_pos same, hk, zero]
  simp

theorem fastPath_slow (slow : ¬a.Fast D W) : a.fastPath D W = none := by
  rw [fastPath]
  split
  · rfl
  · rename_i static
    split
    · rename_i same
      rw [Option.map_eq_none_iff, ← Option.not_isSome_iff_eq_none]
      exact fun intrinsic => slow ⟨by simpa using static, same, intrinsic⟩
    · rfl

/-- On the fast path nothing is moved and one notification is sent. -/
theorem rmaNotify_fast (fast : a.Fast D W) (zero : a.origin.2 = 0) (tagged : a.tag ≠ anyTag)
    (layout : Layout ι) (fuel : ℕ) (cache : GlobInfo ι) (nbi : BitVec 32) :
    ∃ net, a.rmaNotify D W layout fuel cache ⟨[], nbi⟩ = some (cache, net) ∧ moved net.ops = [] ∧
      (observed net.ops).notices.length = 1 := by
  have size := fastPath_fast fast zero
  have ugni (operation : Operation) (direct : Chunk → Bool) (srcSeg : Option Segment) (t : ℤ) :
      ∃ net, a.ugniNotifyOnly D W layout fuel operation direct srcSeg t cache ⟨[], nbi⟩ = some (cache, net) ∧
        moved net.ops = [] ∧ (observed net.ops).notices.length = 1 := by
    rw [ugniNotifyOnly, size]
    dsimp only
    split
    · refine ⟨_, rfl, ?_, ?_⟩
      · rw [moved_ugniSimple]
        rfl
      · rw [Net.ugniSimple_notices _ _ _ _ tagged]
        simp [observed]
    · refine ⟨_, rfl, ?_, ?_⟩
      · rw [moved_ugniSimple, moved_winFlushAll, dmappSimple_zero]
        rfl
      · rw [Net.ugniSimple_notices _ _ _ _ tagged, dmappSimple_zero, (Net.winFlushAll_observed _).2]
        simp [observed]
  rw [rmaNotify]
  split
  · refine ⟨(((⟨[], nbi⟩ : Net).xpmemSimple a.operation ⟨a.originAddr, a.targetOffset W, 0⟩).emit .fence).emit
      (.push (BitVec.ofInt 16 W.commrank) (BitVec.ofInt 16 a.tag)), ?_, ?_, ?_⟩
    · rw [communicationAndDatatypeHandling, size]
      rfl
    · simp [Net.xpmemSimple, NetOp.moves, moved, Net.emit, moves_zero]
    · simp [Net.xpmemSimple, Net.emit, observed, Progress.observe]
  · cases a.operation
    · exact ugni _ _ _ _
    · exact ugni _ _ _ _

/-- The first block of an empty list lies beyond it, whatever entries the cache had. -/
theorem getNextBlock_empty (good : Good layout cache) (rests : Rests cache) {origin : Key ι}
    (empty : layout origin.1 origin.2 = []) (target : Key ι) :
    cache.getNextBlock layout origin target = none := by
  obtain ⟨o, t, c, lookup, good', rests', holds, -⟩ := lookup_first good rests origin target
  have list : (c.dcacheBlocks o).blocks = [] := (good'.stored o origin holds).trans empty
  have start : (c.dcacheBlocks o).AtStart := by
    apply rests'
    rw [(holds_iff.mp holds).1]
    exact Option.some_ne_none _
  have beyond : (c.dcacheBlocks o).begin = none := by
    rw [DcacheBlocks.begin, if_pos start.2, list]
    rfl
  rw [GlobInfo.getNextBlock, lookup]
  simp only [GlobInfo.findNextBlock, beyond, Option.map_none, Option.bind_eq_bind, Option.bind_none]

theorem transfer_empty (good : Good layout cache) (rests : Rests cache) {origin : Key ι}
    (empty : layout origin.1 origin.2 = []) (target : Key ι) (fuel : ℕ) :
    cache.transfer layout origin target fuel = none := by
  cases fuel with
  | zero => rfl
  | succ fuel => rw [GlobInfo.transfer, getNextBlock_empty good rests empty target]; rfl

/-- Off the fast path the call does not end. -/
theorem rmaNotify_slow (slow : ¬a.Fast D W) (good : Good layout cache) (rests : Rests cache)
    (empty : layout a.origin.1 a.origin.2 = []) (fuel : ℕ) (net : Net) :
    a.rmaNotify D W layout fuel cache net = none := by
  have none := fastPath_slow slow
  have stuck := transfer_empty good rests empty a.target fuel
  have handling (commfunc : Net → Chunk → Net) :
      a.communicationAndDatatypeHandling D W layout fuel commfunc cache net = Option.none := by
    simp only [communicationAndDatatypeHandling, none, stuck, Option.bind_eq_bind, Option.bind_none]
  have ugni {operation : Operation} {direct : Chunk → Bool} {srcSeg : Option Segment} {t : ℤ} :
      a.ugniNotifyOnly D W layout fuel operation direct srcSeg t cache net = Option.none := by
    simp only [ugniNotifyOnly, none, stuck, Option.bind_eq_bind, Option.bind_none]
  rw [rmaNotify]
  split
  · rw [handling]
    rfl
  · cases a.operation
    · exact ugni
    · exact ugni

/-- For every state of the datatype cache, every window, every target and all datatypes: a call with
an origin count of zero, and so one with both counts zero, ends without a read beyond a block list, moves
no byte and sends one notification, exactly if it has a tag and takes the fast path. -/
theorem empty_notified {memory : Fin 10 → DcacheBlocks ι} {before : Layout ι} {s : Dcache.State ι}
    (history : Reach step Fitting ⟨dcacheInit memory, before⟩ s) (empty : ∀ type, s.layout type 0 = [])
    (originCount : a.origin.2 = 0) (nbi : BitVec 32) :
    (∃ fuel cache net, a.notify D W s.layout fuel s.cache ⟨[], nbi⟩ = some (cache, net) ∧
        moved net.ops = [] ∧ (observed net.ops).notices.length = 1) ↔
      a.tag ≠ anyTag ∧ a.Fast D W := by
  obtain ⟨good, rests⟩ := reach_rests history
  constructor
  · rintro ⟨fuel, cache, net, run, -, one⟩
    by_cases tagged : a.tag = anyTag
    · rw [notify, if_pos tagged, rma, if_pos (.inl originCount)] at run
      cases run
      simp [observed] at one
    · refine ⟨tagged, ?_⟩
      by_contra slow
      rw [notify, if_neg tagged, rmaNotify_slow slow good rests (originCount ▸ empty _)] at run
      contradiction
  · rintro ⟨tagged, fast⟩
    obtain ⟨net, run, nothing, one⟩ := rmaNotify_fast fast originCount tagged s.layout 0 s.cache nbi
    exact ⟨0, s.cache, net, by rw [notify, if_neg tagged, run], nothing, one⟩

end Request

section Runs

/-- `MPI_UINT64_T` and `MPI_SHORT`. -/
def scalars : Datatypes Bool :=
  ⟨fun type => if type then some .uint64 else none, fun type => if type then 8 else 2,
    fun type => if type then 8 else 2⟩

def scalarLayout : Layout Bool := fun type n => if n ≤ 0 then [] else [⟨0, (n * if type then 8 else 2).toNat⟩]

def scalarCache : GlobInfo Bool := dcacheInit fun _ => ⟨[], 0, none, 0, 0, 0⟩

/-- A window in which rank 1 is on another node. -/
def twoNodes : Win := ⟨⟨false, 0, 0, []⟩, 0, 4096, 1, 0, ⟨8192, 64⟩, [], []⟩

/-- A put of no items, with tag 0. -/
def noItems (type : Bool) : Request Bool := ⟨.put, 8192, (type, 0), 1, 1, (type, 0), 0⟩

theorem empty_notified_uint64 : ∃ fuel cache net,
    (noItems true).notify scalars twoNodes scalarLayout fuel scalarCache ⟨[], 0⟩ = some (cache, net) ∧
      moved net.ops = [] ∧ (observed net.ops).notices.length = 1 :=
  (Request.empty_notified (s := ⟨scalarCache, scalarLayout⟩) .refl (fun _ => rfl) rfl 0).mpr
    ⟨by decide, rfl, rfl, rfl⟩

/-- The same call with `MPI_SHORT` reads beyond an empty list at once. -/
theorem empty_notified_fails :
    scalarCache.getNextBlock scalarLayout (noItems false).origin (noItems false).target = none ∧
      ∀ fuel, (noItems false).notify scalars twoNodes scalarLayout fuel scalarCache ⟨[], 0⟩ = none := by
  have good : Good scalarLayout scalarCache ∧ Rests scalarCache :=
    reach_rests (s := ⟨scalarCache, scalarLayout⟩) .refl
  have slow : ¬(noItems false).Fast scalars twoNodes := by
    rintro ⟨-, -, intrinsic⟩
    simp [scalars, noItems] at intrinsic
  refine ⟨Request.getNextBlock_empty good.1 good.2 rfl _, fun fuel => ?_⟩
  rw [Request.notify, if_neg (by decide)]
  exact Request.rmaNotify_slow slow good.1 good.2 rfl fuel _

end Runs

end FoMPI.RmaNotify
