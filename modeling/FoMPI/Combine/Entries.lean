import FoMPI.Accumulate.Model
import FoMPI.Combine.RmaOp
import FoMPI.Comm.Atomics
import FoMPI.Comm.Inside

/-!
# Accumulates on memory

`foMPI_Accumulate`, `foMPI_Get_accumulate` and `foMPI_Fetch_and_op` from the first
statement to the return, on the memory of the origin and of the target. No other
process accesses the target; a call that does not return has no value.
-/
namespace FoMPI.Combine

universe u

open FoMPI.Accumulate FoMPI.Comm FoMPI.Dcache FoMPI.Foundation FoMPI.RmaNotify FoMPI.Window
open FoMPI.Notif (anyTag)

/-- What the calls ask of datatypes; `named` are the predefined handles. -/
structure Types (ι : Type u) extends Datatypes ι where
  /-- `MPI_Type_size` -/
  size : ι → ℕ
  /-- `check_basic_type`, without a value if it clears `flag` -/
  checkBasicType : ι → Option BasicType
  named : BasicType → ι

/-- The arguments of a call, and what `_foMPI_ALLOC` returns in it. -/
structure Call (ι : Type u) where
  op : Op
  originAddr : ℤ
  origin : Key ι
  resultAddr : ℤ
  result : Key ι
  targetRank : ℤ
  targetDisp : ℤ
  target : Key ι
  bufferAddr : ℤ

/-- What the calls return. -/
inductive Status
  | code (c : Code)
  | datatypeMismatch
  | winMemNotFound
  deriving DecidableEq

structure State (ι V : Type u) where
  mem : Memory V
  cache : GlobInfo ι
  /-- The mutex in the window structure of the target. -/
  mutex : ℤ

variable {ι V : Type u} [DecidableEq ι]

/-- `foMPI_Set_window_mutex`; a mutex that is set stays set. -/
def setWindowMutex (s : State ι V) : Option (State ι V) :=
  if s.mutex = mutexNone then some { s with mutex := acswap s.mutex mutexNone 0 } else none

omit [DecidableEq ι] in
theorem setWindowMutex_free {s : State ι V} (free : s.mutex = mutexNone) :
    setWindowMutex s = some ⟨s.mem, s.cache, 0⟩ := by
  simp [setWindowMutex, free, acswap]

/-- `foMPI_Release_window_mutex`. -/
def releaseWindowMutex (s : State ι V) : State ι V :=
  { s with mutex := acswap s.mutex 0 mutexNone }

section Transfers
variable (W : Win) (onnode : Bool)

/-- The address in the target behind an address that a transfer is given; with shared memory it is
one of the mapping. -/
def targetLoc (x : ℤ) : Loc := ⟨.target, if onnode then x - W.xpmemBase + W.base else x⟩

/-- Destination and source of a byte. -/
def Move.locs (near : Buffer) (v : Move) : Loc × Loc :=
  match v.operation with
  | .get => (⟨near, v.origin⟩, targetLoc W onnode v.target)
  | .put => (targetLoc W onnode v.target, ⟨near, v.origin⟩)

/-- The bytes that the operations of a transfer move, once `dmapp_gsync_wait` has returned. -/
def carriedOut (net : Net) : List Move :=
  let p := observed net.ops
  p.copied ++ p.inFlight

variable (D : Types ι) (layout : Layout ι)

/-- `communication_and_datatype_handling` with one of the four functions that get or put, between a
buffer and the target. -/
def transfer (operation : Operation) (near : Buffer) (addr : ℤ) (key : Key ι) (C : Call ι)
    (s : State ι V) : Option (State ι V) :=
  if h : 1 ≤ key.2 ∧ 1 ≤ C.target.2 then
    let a : Args ι := ⟨operation, addr, key, C.targetRank, C.targetDisp, C.target, anyTag, h.1, h.2⟩
    let onnode := W.locality.viaXpmem C.targetRank
    let commfunc : Net → Chunk → Net := fun net c =>
      if onnode then net.xpmemSimple operation c else net.dmappSimple operation c
    (RmaNotify.communicationAndDatatypeHandling D.toDatatypes W a layout commfunc s.cache ⟨[], 0⟩).map
      fun r => { s with
        cache := r.1
        mem := copyAll ((carriedOut r.2).map (Move.locs W onnode near)) s.mem }
  else none

end Transfers

section Hardware
variable (M : Machine V) (W : Win) (D : Types ι) (layout : Layout ι) (C : Call ι)

/-- One atomic operation of the network card, on 64-bit integers. -/
def applyAtomic (m : Memory V) (x : Atomic) : Memory V :=
  match (M.arith (.integer .int64)).m4Op (m ⟨.origin, x.originAddr⟩) (m ⟨.target, x.targetAddr⟩) x.op with
  | some value => m.store ⟨.target, x.targetAddr⟩ value
  | none => m

/-- The hardware paths of `foMPI_Accumulate`. An address outside of the region of its descriptor is
an error of the network. -/
def hardware (garbage : ℕ) (s : State ι V) : Option (State ι V) :=
  if h : 1 ≤ C.origin.2 ∧ 1 ≤ C.target.2 then do
    let a : Args ι :=
      ⟨.put, C.originAddr, C.origin, C.targetRank, C.targetDisp, C.target, anyTag, h.1, h.2⟩
    let rounds := total (layout C.target.1 C.target.2)
    let (cache, calls) ← hardwareCalls D.toDatatypes W a layout C.op rounds garbage s.cache
    if W.locality.dynamic → ∀ i ∈ calls, Inside W.remoteMemRegions i then
      some { s with
        cache := cache
        mem := (calls.flatMap (accumulate8byte C.op)).foldl (applyAtomic M) s.mem }
    else none
  else none

/-- `nelements` of the fast path; `disp_unit` is a `uint32_t`. -/
def fastElements : ℕ := (C.target.2 * W.dispUnit % 4294967296).toNat / 8

/-- One `dmapp_afadd_qw_nbi` of the fast path of `foMPI_Get_accumulate`. -/
def afadd (i : ℕ) (m : Memory V) : Memory V :=
  let target : Loc := ⟨.target, W.base + C.targetDisp * W.dispUnit + i * 8⟩
  let old := m target
  (m.store target ((M.arith (.integer .int64)).add (m ⟨.origin, C.originAddr + i * 8⟩) old)).store
    ⟨.result, C.resultAddr + i * 8⟩ old

end Hardware

section Software
variable (M : Machine V) (D : Types ι) (layout : Layout ι) (C : Call ι) (T : BasicType)

/-- `transport_size/origin_basic_type_size`, handed on as an `int`. -/
def elementCount (transportSize : ℕ) : ℕ := (Int.bmod (transportSize / T.size) 4294967296).toNat

/-- The number of elements in the buffer, computed in an `int`. -/
def elementsInBuffer : ℤ := (Int.bmod (C.origin.2 * D.size C.origin.1) 4294967296).tdiv T.size

/-- The calls of `foMPI_RMA_op` in `foMPI_Accumulate`; what they return is not looked at. -/
def operateInPlace (chunks : List Chunk) (m : Memory V) : Memory V :=
  chunks.foldl (fun m c =>
    let p : Loc := ⟨.buffer, C.bufferAddr + c.originOffset⟩
    (rmaOp M T p ⟨.origin, C.originAddr + c.targetOffset⟩ p m C.op (elementCount T c.size)).1) m

/-- The calls of `foMPI_RMA_op` in `foMPI_Get_accumulate`, from `buffer_ptr` on. -/
def operateInto : ℤ → List Chunk → Memory V → Memory V
  | _, [], m => m
  | bufferPtr, c :: cs, m =>
    operateInto (bufferPtr + c.size) cs
      (rmaOp M T ⟨.buffer, bufferPtr⟩ ⟨.origin, C.originAddr + c.targetOffset⟩
        ⟨.result, C.resultAddr + c.originOffset⟩ m C.op (elementCount T c.size)).1

end Software

section Entries
variable (M : Machine V) (W : Win) (D : Types ι) (layout : Layout ι) (C : Call ι)

/-- The mutex path of `foMPI_Accumulate`. -/
def accumulateSoftware (T : BasicType) (s : State ι V) : Option (Status × State ι V) := do
  let s ← setWindowMutex s
  let key : Key ι := (D.named T, elementsInBuffer D C T)
  let s ← transfer W D layout .get .buffer C.bufferAddr key C s
  let (chunks, cache) ← s.cache.transfer layout key C.origin (calls layout key C.origin)
  let s := { s with cache := cache, mem := operateInPlace M C T chunks s.mem }
  let s ← transfer W D layout .put .buffer C.bufferAddr key C s
  return (.code .success, releaseWindowMutex s)

/-- `foMPI_Accumulate`. -/
def accumulate (garbage : ℕ) (s : State ι V) : Option (Status × State ι V) :=
  if C.origin.2 = 0 ∨ C.target.2 = 0 then some (.code .success, s)
  else if C.origin.1 = C.target.1 ∧ C.target.1 = D.named (.integer .int64) ∧ C.op = .sum then
    (hardware M W D layout C garbage s).map fun s => (.code .success, s)
  else if C.origin.1 = C.target.1 ∧
      (C.origin.1 = D.named .double ∨ C.target.1 = D.named (.integer .int64)) ∧
      (C.op = .bor ∨ C.op = .band ∨ C.op = .bxor) then
    (hardware M W D layout C garbage s).map fun s => (.code .success, s)
  else if C.op = .replace then
    (transfer W D layout .put .origin C.originAddr C.origin C s).map fun s => (.code .success, s)
  else
    match D.checkBasicType C.origin.1, D.checkBasicType C.target.1 with
    | none, _ => some (.code .datatypeNotSupported, s)
    | some _, none => some (.code .datatypeNotSupported, s)
    | some T, some T' =>
      if T ≠ T' then some (.datatypeMismatch, s) else accumulateSoftware M W D layout C T s

/-- `foMPI_Get_accumulate` between its `get` and the release of the mutex. -/
def operateAndPut (s : State ι V) : Option (State ι V) :=
  if C.op = .noOp then some s
  else if C.op = .replace then transfer W D layout .put .origin C.originAddr C.origin C s
  else
    match D.checkBasicType C.origin.1 with
    -- where only an assertion looks at `flag`
    | none => none
    | some T => do
      let (chunks, cache) ← s.cache.transfer layout C.result C.origin (calls layout C.result C.origin)
      let s := { s with cache := cache, mem := operateInto M C T C.bufferAddr chunks s.mem }
      transfer W D layout .put .buffer C.bufferAddr (D.named T, elementsInBuffer D C T) C s

/-- The mutex path of `foMPI_Get_accumulate`. -/
def getAccumulateSoftware (s : State ι V) : Option (Status × State ι V) := do
  let s ← setWindowMutex s
  let s ← transfer W D layout .get .result C.resultAddr C.result C s
  let s ← operateAndPut M W D layout C s
  return (.code .success, releaseWindowMutex s)

/-- The fast path of `foMPI_Get_accumulate` is taken. -/
def takesFastPath : Bool :=
  C.origin.1 = D.named (.integer .int64) ∧ C.origin.1 = C.target.1 ∧ C.origin.1 = C.result.1 ∧
    W.locality.dynamic = false ∧ C.op = .sum

/-- `foMPI_Get_accumulate`. -/
def getAccumulate (s : State ι V) : Option (Status × State ι V) :=
  if C.target.2 = 0 ∨ C.result.2 = 0 then some (.code .success, s)
  else if takesFastPath W D C then
    some (.code .success, { s with mem := runAll (afadd M W C) (List.range (fastElements W C)) s.mem })
  else getAccumulateSoftware M W D layout C s

/-- `target_addr` of `foMPI_Fetch_and_op`; on a dynamic window one region has to hold the element. -/
def fetchAddr (T : BasicType) : Option ℤ :=
  if W.locality.dynamic then
    if W.remoteMemRegions.any fun r => r.covers C.targetDisp T.size then some C.targetDisp else none
  else some (W.base + C.targetDisp * W.dispUnit)

/-- `foMPI_Fetch_and_op` once the mutex is set: the memory afterwards, and `res`. -/
def fetchAndCombine (T : BasicType) (addr : ℤ) (m : Memory V) : Memory V × Code :=
  let element (near : Buffer) (x : ℤ) : List (Loc × Loc) :=
    (List.range T.size).map fun k : ℕ => (⟨near, x + k⟩, ⟨.target, addr + k⟩)
  let putBack (near : Buffer) (x : ℤ) : List (Loc × Loc) :=
    (List.range T.size).map fun k : ℕ => (⟨.target, addr + k⟩, ⟨near, x + k⟩)
  let m := copyAll (element .result C.resultAddr) m
  if C.op = .replace then (copyAll (putBack .origin C.originAddr) m, .success)
  else if C.op = .noOp then (m, .success)
  else
    let (m, res) :=
      rmaOp M T ⟨.buffer, C.bufferAddr⟩ ⟨.origin, C.originAddr⟩ ⟨.result, C.resultAddr⟩ m C.op 1
    if res = .success then (copyAll (putBack .buffer C.bufferAddr) m, res) else (m, res)

/-- `foMPI_Fetch_and_op` on one element of a predefined type. -/
def fetchAndOp (T : BasicType) (s : State ι V) : Option (Status × State ι V) :=
  match fetchAddr W C T with
  | none => some (.winMemNotFound, s)
  | some addr => do
    let s ← setWindowMutex s
    let (m, res) := fetchAndCombine M C T addr s.mem
    return (.code res, releaseWindowMutex { s with mem := m })

end Entries

section Examples

/-- Words of 64 bits for every type. -/
def words : Machine (BitVec 64) := ⟨fun _ => bitVecArith true, fun _ a b => a.slt b⟩

/-- The predefined datatypes and no others. -/
def predefined : Types BasicType where
  intrinsic
    | .double => some .double
    | .integer .int => some .int
    | .integer .uint64 => some .uint64
    | .byte => some .byte
    | _ => none
  extent T := T.extent
  trueExtent T := T.extent
  size := BasicType.size
  checkBasicType := some
  named := id

/-- Elements in a row. -/
def rows : Layout BasicType := fun T n => [⟨0, (n * T.size).toNat⟩]

/-- A static window at address 4096 of another node. -/
def remote (dispUnit : ℕ) : Win := ⟨⟨false, -1, -1, []⟩, 0, 4096, dispUnit, 0, ⟨0, 0⟩, [], []⟩

/-- `n` elements of a type in each buffer, at displacement 0. -/
def elementsCall (op : Op) (T : BasicType) (n : ℤ) : Call BasicType :=
  ⟨op, 0, (T, n), 0, (T, n), 1, 0, (T, n), 0⟩

/-- A cache as `dcache_init` leaves it, the mutex free. -/
def initially {V : Type} (mem : Memory V) : State BasicType V :=
  ⟨mem, dcacheInit fun _ => ⟨[], 0, none, 0, 0, 0⟩, mutexNone⟩

/-- The target holds 5, all other memory 0. -/
def five : Memory (BitVec 64) := fun p => if p = ⟨.target, 4096⟩ then 5 else 0

end Examples

end FoMPI.Combine
