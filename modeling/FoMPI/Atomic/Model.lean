import FoMPI.Accumulate.Model
import FoMPI.Foundation.Linearizability

/-!
# Atomic operations that fetch

`foMPI_Fetch_and_op` and `foMPI_Compare_and_swap` on the memory of one target, by any number
of calls at once. A call is an agent of its own; its steps are the operations that reach the
target. An element is taken as its bytes, as `memcmp` and the transfers see it, and elements
at different addresses do not overlap.
-/
namespace FoMPI.Atomic
open FoMPI.Accumulate FoMPI.Foundation FoMPI.Window

/-- A predefined datatype: `MPI_Type_size`, and `foMPI_RMA_op` on one element, given what `buf3`,
`buf1` and `buf2` hold. -/
structure Datatype (V : Type*) where
  size : ℕ
  rmaOp : Op → V → V → V → V × Code

inductive Operation (V : Type*)
  | fetchAndOp (op : Op) (origin : V)
  | compareAndSwap (origin compare : V)

/-- The arguments, with the address of the element and what the memory from `_foMPI_ALLOC` holds. -/
structure Call (V : Type*) where
  operation : Operation V
  datatype : Datatype V
  targetAddr : ℤ
  buffer : V

/-- `MPI_SUCCESS` or another code of `foMPI_RMA_op`, or `foMPI_ERROR_RMA_WIN_MEM_NOT_FOUND`. -/
inductive Return
  | code (c : Code)
  | winMemNotFound
  deriving DecidableEq

/-- What a call leaves in `result_addr`, if it writes to it, and what it returns. -/
structure Response (V : Type*) where
  result : Option V
  code : Return
  deriving DecidableEq

/-- The window as the calls see it: `create_flavor`, and the copy of the attached regions. -/
structure Target where
  createFlavor : Flavor
  remoteMemRegions : List Region

namespace Call
variable {V : Type*} (W : Target) (C : Call V)

/-- The element is found: a dynamic window wants it in one region. -/
def found : Bool :=
  W.createFlavor ≠ .dynamic ∨ W.remoteMemRegions.any fun r => r.covers C.targetAddr C.datatype.size

/-- The call is left to the network card. -/
def viaNic : Bool :=
  match C.operation with
  | .fetchAndOp .. => false
  | .compareAndSwap .. => C.datatype.size = 8

variable [DecidableEq V]

/-- What is put back for the element fetched, if anything is, and the return code. -/
def putBack (fetched : V) : Option V × Code :=
  match C.operation with
  | .fetchAndOp op origin =>
    if op = .replace then (some origin, .success)
    else if op = .noOp then (none, .success)
    else
      let r := C.datatype.rmaOp op C.buffer origin fetched
      (if r.2 = .success then some r.1 else none, r.2)
  | .compareAndSwap origin compare => (if fetched = compare then some origin else none, .success)

end Call

/-- How far a call has come. -/
inductive Pc (V : Type*)
  | idle
  | entered
  /-- The mutex is set. -/
  | locked
  | fetched (value : V)
  | written (response : Response V)
  | returning (response : Response V)
  | done

/-- The memory of the target with the mutex in its window structure, the calls, and the history of a run. -/
structure State (ι V : Type*) where
  memory : ℤ → V
  mutex : ℤ
  pc : ι → Pc V
  history : List (CallEvent ι (Response V))

inductive Action (ι : Type*)
  | call (i : ι)
  | run (i : ι)
  deriving DecidableEq

variable {ι V : Type*}

def init (memory : ℤ → V) : State ι V := ⟨memory, mutexNone, fun _ => .idle, []⟩

/-- The memory after a put, if there is one. -/
def put (memory : ℤ → V) (addr : ℤ) : Option V → ℤ → V
  | some value => Function.update memory addr value
  | none => memory

variable [DecidableEq ι] [DecidableEq V]

namespace State

def goto (s : State ι V) (i : ι) (pc : Pc V) : State ι V := { s with pc := Function.update s.pc i pc }

def store (s : State ι V) (addr : ℤ) (value : Option V) : State ι V :=
  { s with memory := put s.memory addr value }

/-- The first step of a call: the search for the element, the operation of the network card, or one
iteration of `foMPI_Set_window_mutex`. -/
def enter (W : Target) (call : ι → Call V) (s : State ι V) (i : ι) : State ι V :=
  let C := call i
  let value := s.memory C.targetAddr
  if ¬C.found W then s.goto i (.returning ⟨none, .winMemNotFound⟩)
  else if C.viaNic then
    (s.store C.targetAddr (C.putBack value).1).goto i (.returning ⟨some value, .code .success⟩)
  else
    let t := if s.mutex = mutexNone then s.goto i .locked else s
    { t with mutex := acswap s.mutex mutexNone 0 }

/-- The next operation of a call. -/
def run (W : Target) (call : ι → Call V) (s : State ι V) (i : ι) : Option (State ι V) :=
  let C := call i
  match s.pc i with
  | .idle | .done => none
  | .entered => some (s.enter W call i)
  | .locked => some (s.goto i (.fetched (s.memory C.targetAddr)))
  | .fetched value =>
    let r := C.putBack value
    some ((s.store C.targetAddr r.1).goto i (.written ⟨some value, .code r.2⟩))
  | .written response => some { s.goto i (.returning response) with mutex := acswap s.mutex 0 mutexNone }
  | .returning response => some { s.goto i .done with history := s.history ++ [.respond i response] }

end State

def step (W : Target) (call : ι → Call V) (s : State ι V) : Action ι → Option (State ι V)
  | .call i =>
    match s.pc i with
    | .idle => some { s.goto i .entered with history := s.history ++ [.invoke i] }
    | _ => none
  | .run i => s.run W call i

/-- What a call does that has the target to itself. -/
def atomically (W : Target) (call : ι → Call V) (memory : ℤ → V) (i : ι) : (ℤ → V) × Response V :=
  let C := call i
  if C.found W then
    let r := C.putBack (memory C.targetAddr)
    (put memory C.targetAddr r.1, ⟨some (memory C.targetAddr), .code r.2⟩)
  else (memory, ⟨none, .winMemNotFound⟩)

end FoMPI.Atomic
