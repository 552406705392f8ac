import FoMPI.Accumulate.Op
import FoMPI.Foundation.Transition
import FoMPI.Window.Regions
import Mathlib.Data.Fintype.Basic

/-!
# Accumulates on one location

`foMPI_Accumulate`, `foMPI_Get_accumulate` and `foMPI_Fetch_and_op` with
`foMPI_SUM` on a predefined integer type, seen from one element of the target.
A call is an agent of its own; its steps are the operations that reach the target.
-/
namespace FoMPI.Accumulate
open FoMPI.Foundation FoMPI.Window

/-- `create_flavor`. -/
inductive Flavor
  | create | allocate | dynamic
  deriving DecidableEq

/-- The location, and what the calls read of the window and of `win_array[target_rank]`. -/
structure Site where
  createFlavor : Flavor
  dispUnit : ℕ
  remoteMemRegions : List Region
  address : ℤ

inductive Entry
  | accumulate | getAccumulate | fetchAndOp
  deriving DecidableEq

/-- A call whose target elements include the location, as element `index`. -/
structure Call (T : IntType) where
  entry : Entry
  targetCount : ℕ
  index : ℕ
  /-- The element of `origin_addr` that is meant for the location. -/
  origin : BitVec T.width
  /-- What the memory from `_foMPI_ALLOC` holds. -/
  buffer : BitVec T.width
  isInt : targetCount < 2147483648
  within : index < targetCount
  single : entry = .fetchAndOp → targetCount = 1

namespace Call
variable {T : IntType} (S : Site) (C : Call T)

/-- The bytes of a transfer are computed in an `int`. A negative size moves nothing. -/
def bytes : ℕ := (Int.bmod (C.targetCount * T.size) 4294967296).toNat

/-- The bytes of the location, as offsets from the first target element. -/
def first : ℕ := C.index * T.size

/-- The address of the first target element. -/
def targetOffset : ℤ := S.address - C.first

/-- `nelements` in the fast path of `foMPI_Get_accumulate`; `disp_unit` is a `uint32_t`. -/
def fastElements : ℕ := C.targetCount * S.dispUnit % 4294967296 / 8

/-- The call is carried out by NIC additions. -/
def fast : Bool :=
  match C.entry with
  | .accumulate => T = .int64
  | .getAccumulate => T = .int64 ∧ S.createFlavor ≠ .dynamic
  | .fetchAndOp => false

/-- The pieces of the target that a transfer is carried out in. A window that is not dynamic, or
one region for the whole access, leaves the block as it is. -/
def pieces : Option (List Chunk) :=
  let block : Chunk := ⟨0, 0, C.bytes⟩
  if S.createFlavor ≠ .dynamic ∨
      (wholeRegion S.remoteMemRegions (C.targetOffset S) (C.targetCount * T.size)).isSome then
    some [block]
  else (splitBlock S.remoteMemRegions (C.targetOffset S) block).map fun ps => ps.map Prod.snd

/-- `accumulate_sum_8byte` adds `size / 8` elements from the start of the piece on. -/
def addsInPiece (piece : Chunk) : Bool :=
  piece.targetOffset ≤ C.first ∧ (C.first - piece.targetOffset) % 8 = 0 ∧
    C.first + 8 ≤ piece.targetOffset + piece.size / 8 * 8

/-- The location is among the elements the call gets and puts, or adds to. -/
def hits : Bool :=
  match C.entry with
  | .accumulate =>
    match C.pieces S with
    | some ps => if C.fast S then ps.any C.addsInPiece else C.first + T.size ≤ C.bytes
    | none => false
  | .getAccumulate =>
    if C.fast S then C.index < C.fastElements S
    else (C.pieces S).isSome ∧ C.first + T.size ≤ C.bytes
  | .fetchAndOp =>
    S.createFlavor ≠ .dynamic ∨ S.remoteMemRegions.any fun r => r.covers S.address T.size

/-- `foMPI_Fetch_and_op` wants the element in one region. -/
def rejected : Bool := C.entry = .fetchAndOp ∧ ¬C.hits S

/-- The element of the buffer that is put back for the element fetched, if the buffer is. -/
def putBack (fetched : BitVec T.width) : Option (BitVec T.width) :=
  match C.entry with
  | .accumulate => some (rmaOp T .sum fetched C.origin fetched).1
  | .getAccumulate => some (rmaOp T .sum C.buffer C.origin fetched).1
  | .fetchAndOp =>
    let r := rmaOp T .sum C.buffer C.origin fetched
    if r.2 = .success then some r.1 else none

end Call

/-- How far a call has come. -/
inductive Pc (w : ℕ)
  | idle
  /-- A NIC addition has been issued. -/
  | inFlight
  /-- The mutex is set. -/
  | locked
  | fetched (value : BitVec w)
  | written
  | done
  deriving DecidableEq

structure State (ι : Type*) (w : ℕ) where
  location : BitVec w
  /-- The mutex in the window structure of the target. -/
  mutex : ℤ
  pc : ι → Pc w

inductive Act (ι : Type*)
  /-- Return with `foMPI_ERROR_RMA_WIN_MEM_NOT_FOUND`. -/
  | reject (i : ι)
  /-- Issue the NIC addition. -/
  | issue (i : ι)
  /-- The NIC addition takes effect. -/
  | add (i : ι)
  /-- One iteration of `foMPI_Set_window_mutex`. -/
  | setMutex (i : ι)
  | get (i : ι)
  | put (i : ι)
  | releaseMutex (i : ι)

/-- `foMPI_MUTEX_NONE`. -/
def mutexNone : ℤ := -1

/-- `dmapp_acswap_qw`: what the word holds afterwards; what it held is returned to the caller. -/
def acswap (word compare swap : ℤ) : ℤ := if word = compare then swap else word

variable {ι : Type*} {T : IntType}

def start (initial : BitVec T.width) : State ι T.width := ⟨initial, mutexNone, fun _ => .idle⟩

variable [DecidableEq ι]

def State.goto (s : State ι T.width) (i : ι) (pc : Pc T.width) : State ι T.width :=
  { s with pc := Function.update s.pc i pc }

def step (S : Site) (call : ι → Call T) (s : State ι T.width) : Act ι → Option (State ι T.width)
  | .reject i =>
    if s.pc i = .idle ∧ (call i).rejected S then some (s.goto i .done) else none
  | .issue i =>
    if s.pc i = .idle ∧ (call i).fast S then
      some (s.goto i (if (call i).hits S then .inFlight else .done))
    else none
  | .add i =>
    if s.pc i = .inFlight then
      some { s.goto i .done with location := s.location + (call i).origin }
    else none
  | .setMutex i =>
    if s.pc i = .idle ∧ ¬(call i).fast S ∧ ¬(call i).rejected S then
      let t := if s.mutex = mutexNone then s.goto i .locked else s
      some { t with mutex := acswap s.mutex mutexNone 0 }
    else none
  | .get i =>
    if s.pc i = .locked then
      some (s.goto i (.fetched (if (call i).hits S then s.location else (call i).buffer)))
    else none
  | .put i =>
    match s.pc i with
    | .fetched value =>
      let back := if (call i).hits S then (call i).putBack value else none
      some { s.goto i .written with location := back.getD s.location }
    | _ => none
  | .releaseMutex i =>
    if s.pc i = .written then
      some { s.goto i .done with mutex := acswap s.mutex 0 mutexNone }
    else none

end FoMPI.Accumulate
