import Mathlib.Data.Int.Order.Basic
import FoMPI.Foundation.Transition
import FoMPI.Foundation.Links
import FoMPI.Foundation.Registry

/-!
# Attached regions of a dynamic window and their remote copies

`foMPI_Win_attach`, `foMPI_Win_detach` and `get_dynamic_window_regions` as programs
of single steps: a compare-and-swap on the mutex of the list, one remote read, or
one piece of local code of the owner. The list of the owner lives in a heap and is
read by others node by node; an origin keeps its copy as a plain list. Memory from
the allocator, descriptors from the registration and the contents of fresh memory
are answers of the environment.
-/
namespace FoMPI.Dynamic
open FoMPI.Foundation

variable {n : ℕ}

/-- A node address in the heap of one process. -/
abbrev Addr := ℕ

/-- `fompi_seg_desc_t`. -/
abbrev Seg := ℕ

/-- What a node says about its region. -/
structure MemRegion where
  seg : Seg
  base : ℤ
  size : ℤ
  deriving DecidableEq, Repr

/-- `foMPI_Win_dynamic_element_t`. -/
structure Element extends MemRegion where
  nextSeg : Seg
  next : Option Addr
  deriving DecidableEq, Repr

/-- What a registration is of: the memory of a node, or that of a region. -/
inductive Block
  | node (a : Addr)
  | memory (base size : ℤ)
  deriving DecidableEq, Repr

abbrev Registrations := Registry Seg Block

/-- The codes of `foMPI_Win_attach` and `foMPI_Win_detach`. -/
inductive Code
  | success
  | errorRmaWinMemNotFound
  deriving DecidableEq, Repr

/-- `foMPI_MUTEX_NONE`. -/
def mutexNone : ℤ := -1

/-- The fields of `foMPI_Win_desc_t` that describe the own regions, with the heap the nodes are in
and the registrations that the calls have made and ended. -/
structure Desc where
  dynamicMutex : ℤ
  dynamicId : BitVec 32
  winDynamicMemRegions : Option Addr
  winDynamicMemRegionsSeg : Seg
  dynamicLast : Option Addr
  heap : Addr → Element
  allocated : List Addr
  registrations : Registrations

/-- `foMPI_Win_dynamic_struct_t`: what an origin has cached of a target. The nodes of the copy are
linked in the order of the list. -/
structure Cached where
  remoteMemRegions : List Element
  dynamicId : BitVec 32

/-- The next step of a process. `done` is outside the three routines, with the code that the last
of them returned. -/
inductive Pc (n : ℕ)
  | done (code : Code)
  | attachAcquire (base size : ℤ)
  | attachLink (base size : ℤ)
  | attachDescribe (base size : ℤ)
  | attachTerminate
  | detachAcquire (base : ℤ)
  | detachHead (base : ℤ)
  | detachSearch (base : ℤ) (previous current : Addr)
  | detachUnlink (previous current : Addr)
  | detachFree (current : Addr)
  | bump
  | release
  | fetchAcquire (target : Fin n)
  | fetchId (target : Fin n)
  | fetchHead (target : Fin n)
  | fetchNode (target : Fin n) (ptr : Addr) (seg : Seg)
  | fetchRelease (target : Fin n)
  deriving DecidableEq, Repr

/-- The calls. -/
inductive Call (n : ℕ)
  | attach (base size : ℤ)
  | detach (base : ℤ)
  | fetch (target : Fin n)
  deriving DecidableEq, Repr

def Call.start : Call n → Pc n
  | .attach base size => .attachAcquire base size
  | .detach base => .detachAcquire base
  | .fetch target => .fetchAcquire target

/-- What the allocator and the registration return. -/
structure Answer where
  addr : Addr
  contents : Element
  seg : Seg

/-- A window in use. `edits` and `seen` are not in the code: how often the list of a process has
been changed, and how often when an origin last read the id. -/
structure State (n : ℕ) where
  desc : Fin n → Desc
  dynamicList : Fin n → Fin n → Cached
  pc : Fin n → Pc n
  edits : Fin n → ℕ
  seen : Fin n → Fin n → ℕ

/-- After `foMPI_Win_create_dynamic`; nothing is known of the heap. -/
def init (heap : Fin n → Addr → Element) : State n :=
  { desc := fun q => ⟨mutexNone, 0#32, none, 0, none, heap q, [], .empty⟩
    dynamicList := fun _ _ => ⟨[], 0#32⟩
    pc := fun _ => .done .success
    edits := fun _ => 0
    seen := fun _ _ => 0 }

namespace Desc

/-- The successor function of the list. -/
def links (D : Desc) (a : Addr) : Option Addr := (D.heap a).next

/-- `dmapp_acswap_qw` on the mutex, with the value it fetches. -/
def acswap (D : Desc) (comparand swap : ℤ) : ℤ × Desc :=
  (D.dynamicMutex, if D.dynamicMutex = comparand then { D with dynamicMutex := swap } else D)

/-- `_foMPI_ALIGNED_ALLOC` of a node, which returns memory that is not in use. -/
def alloc (D : Desc) (x : Answer) : Option Desc :=
  if x.addr ∈ D.allocated then none
  else some { D with
    heap := Function.update D.heap x.addr x.contents
    allocated := x.addr :: D.allocated }

def free (D : Desc) (a : Addr) : Desc := { D with allocated := D.allocated.erase a }

/-- `_foMPI_mem_register`, which returns the descriptor `seg`. -/
def memRegister (D : Desc) (seg : Seg) (block : Block) : Desc :=
  { D with registrations := D.registrations.register seg block }

/-- `_foMPI_mem_unregister`. -/
def memUnregister (D : Desc) (seg : Seg) : Desc := { D with registrations := D.registrations.unregister seg }

/-- Write a node. -/
def write (D : Desc) (a : Addr) (e : Element) : Desc := { D with heap := Function.update D.heap a e }

/-- The first part of an attach: a new node, at the head of an empty list or behind the last. -/
def attachLink (D : Desc) (x : Answer) : Option Desc :=
  match D.dynamicLast with
  | none => (D.alloc x).map fun D =>
    { D.memRegister x.seg (.node x.addr) with
      dynamicLast := some x.addr
      winDynamicMemRegions := some x.addr
      winDynamicMemRegionsSeg := x.seg }
  | some last => (D.alloc x).map fun D =>
    { (D.write last { D.heap last with next := some x.addr, nextSeg := x.seg }).memRegister x.seg (.node x.addr) with
      dynamicLast := some x.addr }

/-- The second part: address, size and descriptor of the region. -/
def attachDescribe (D : Desc) (base size : ℤ) (x : Answer) : Option Desc :=
  D.dynamicLast.map fun last =>
    (D.write last { D.heap last with base := base, size := size, seg := x.seg }).memRegister x.seg
      (.memory base size)

/-- The third part: the new node is the last one. -/
def attachTerminate (D : Desc) : Option Desc :=
  D.dynamicLast.map fun last => D.write last { D.heap last with next := none }

/-- Take a node out of the list and unregister the node and its region. -/
def detachUnlink (D : Desc) (previous current : Addr) : Desc :=
  let e := D.heap current
  if D.winDynamicMemRegions = some current then
    if D.dynamicLast = some current then
      { (D.memUnregister e.seg).memUnregister D.winDynamicMemRegionsSeg with
        dynamicLast := none
        winDynamicMemRegions := none }
    else
      { (D.memUnregister e.seg).memUnregister D.winDynamicMemRegionsSeg with
        winDynamicMemRegions := e.next
        winDynamicMemRegionsSeg := e.nextSeg }
  else
    let E := D.memUnregister (D.heap previous).nextSeg
    if D.dynamicLast = some current then
      { (E.write previous { D.heap previous with next := none }).memUnregister e.seg with
        dynamicLast := some previous }
    else
      (E.write previous { D.heap previous with next := e.next, nextSeg := e.nextSeg }).memUnregister e.seg

end Desc

/-- The steps a process makes on its own list. -/
def localStep (D : Desc) (x : Answer) : Pc n → Option (Desc × Pc n)
  | .attachLink base size => (D.attachLink x).map fun D => (D, .attachDescribe base size)
  | .attachDescribe base size => (D.attachDescribe base size x).map fun D => (D, .attachTerminate)
  | .attachTerminate => D.attachTerminate.map fun D => (D, .bump)
  | .detachHead base =>
    match D.winDynamicMemRegions with
    -- the early return leaves the mutex as it is
    | none => some (D, .done .errorRmaWinMemNotFound)
    | some a => some (D, .detachSearch base a a)
  | .detachSearch base previous current =>
    if (D.heap current).base = base then some (D, .detachUnlink previous current)
    else
      match (D.heap current).next with
      | some a => some (D, .detachSearch base current a)
      | none => some (D, .done .errorRmaWinMemNotFound)
  | .detachUnlink previous current => some (D.detachUnlink previous current, .detachFree current)
  | .detachFree current => some (D.free current, .bump)
  | _ => none

namespace State

def setPc (s : State n) (p : Fin n) (pc : Pc n) : State n :=
  { s with pc := Function.update s.pc p pc }

def setDesc (s : State n) (q : Fin n) (D : Desc) : State n :=
  { s with desc := Function.update s.desc q D }

def setCached (s : State n) (p q : Fin n) (C : Cached) : State n :=
  { s with dynamicList := Function.update s.dynamicList p (Function.update (s.dynamicList p) q C) }

def setSeen (s : State n) (p q : Fin n) : State n :=
  { s with seen := Function.update s.seen p (Function.update (s.seen p) q (s.edits q)) }

/-- One round of the acquisition loop on the mutex of `q`. -/
def acquire (s : State n) (p q : Fin n) (next : Pc n) : State n :=
  let (mutex, D) := (s.desc q).acswap mutexNone p
  if mutex = mutexNone then (s.setDesc q D).setPc p next else s.setDesc q D

/-- Give the mutex of `q` back and return. -/
def release (s : State n) (p q : Fin n) : State n :=
  (s.setDesc q ((s.desc q).acswap p mutexNone).2).setPc p (.done .success)

/-- Read the id of `q`; where it is the cached one the copy is kept, otherwise it is dropped. -/
def readId (s : State n) (p q : Fin n) : State n :=
  let t := s.setSeen p q
  if (s.desc q).dynamicId = (s.dynamicList p q).dynamicId then t.setPc p (.fetchRelease q)
  else (t.setCached p q ⟨[], (s.desc q).dynamicId⟩).setPc p (.fetchHead q)

/-- Where the reading of the list goes on after a pointer. -/
def follow (q : Fin n) (seg : Seg) : Option Addr → Pc n
  | none => .fetchRelease q
  | some a => .fetchNode q a seg

/-- Read one node and append it to the copy. -/
def readNode (s : State n) (p q : Fin n) (a : Addr) : State n :=
  let e := (s.desc q).heap a
  let C := s.dynamicList p q
  (s.setCached p q { C with remoteMemRegions := C.remoteMemRegions ++ [e] }).setPc p
    (follow q e.nextSeg e.next)

/-- The id is incremented once per edit. -/
def bumpId (s : State n) (p : Fin n) : State n :=
  let D := s.desc p
  { (s.setDesc p { D with dynamicId := D.dynamicId + 1#32 }).setPc p .release with
    edits := Function.update s.edits p (s.edits p + 1) }

end State

/-- A step of the schedule. -/
inductive Action (n : ℕ)
  | call (p : Fin n) (c : Call n)
  | run (p : Fin n) (x : Answer)

/-- The step that the program counter asks for. -/
def runStep (s : State n) (p : Fin n) (x : Answer) : Option (State n) :=
  match s.pc p with
  | .done _ => none
  | .attachAcquire base size => some (s.acquire p p (.attachLink base size))
  | .detachAcquire base => some (s.acquire p p (.detachHead base))
  | .fetchAcquire q => some (s.acquire p q (.fetchId q))
  | .release => some (s.release p p)
  | .fetchRelease q => some (s.release p q)
  | .bump => some (s.bumpId p)
  | .fetchId q => some (s.readId p q)
  | .fetchHead q =>
    some (s.setPc p (State.follow q (s.desc q).winDynamicMemRegionsSeg (s.desc q).winDynamicMemRegions))
  | .fetchNode q a _ => some (s.readNode p q a)
  | pc => (localStep (s.desc p) x pc).map fun (D, next) => (s.setDesc p D).setPc p next

def step (s : State n) : Action n → Option (State n)
  | .call p c =>
    match s.pc p with
    | .done _ => some (s.setPc p c.start)
    | _ => none
  | .run p x => runStep s p x

/-- Fewer than 2^32 edits between two readings of the id by one origin; the empty copy that
window creation leaves is the first reading. -/
def fewEdits (s : State n) : Action n → State n → Prop
  | .run p _, _ => ∀ q, s.pc p = .fetchId q → s.edits q < s.seen p q + 4294967296
  | .call _ _, _ => True

end FoMPI.Dynamic
