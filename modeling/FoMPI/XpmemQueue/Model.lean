import FoMPI.Foundation.Transition
import FoMPI.Foundation.Ring

/-!
# The on-node notification queue

`xpmem_notif_push` and `xpmem_notif_pop` as programs of single reads, writes and
atomic additions on a queue in shared memory. The lock is taken as granting one
waiting producer at a time.
-/
namespace FoMPI.XpmemQueue
open FoMPI.Foundation

/-- `_foMPI_XPMEM_NUM_DST_CQ_ENTRIES`. -/
def numDstCqEntries : ℕ := 1000

/-- The two 16-bit fields that identify a notification. -/
structure Notif where
  source : BitVec 16
  tag : BitVec 16
  deriving DecidableEq, Repr

/-- `fompi_xpmem_notif_t`, as far as `xpmem_notif_push` writes it. -/
structure Slot where
  tag : BitVec 16
  source : BitVec 16
  size : ℕ
  deriving DecidableEq, Repr

/-- The slot of a notification without inline data. -/
def Notif.slot (x : Notif) : Slot := ⟨x.tag, x.source, 0⟩

/-- Where a producer is in `xpmem_notif_push`; `ind` is its copy of `inser_ind`. -/
inductive PushPc
  | idle
  | checkCount
  | lock
  | readInserInd
  | writeTag (ind : ℕ)
  | writeSource (ind : ℕ)
  | writeSize (ind : ℕ)
  | writeInserInd (ind : ℕ)
  | addCount
  | unlock
  deriving DecidableEq, Repr

/-- Where the consumer is in `xpmem_notif_pop`, with what it has read so far. -/
inductive PopPc
  | idle
  | readSource
  | readTag (source : BitVec 16)
  | readSize (source tag : BitVec 16)
  | advance (source tag : BitVec 16)
  | subCount (source tag : BitVec 16)
  deriving DecidableEq, Repr

structure Producer where
  pc : PushPc
  arg : Notif
  deriving DecidableEq, Repr

/-- The queue, its users, and the history of a run. A notification is stored from the addition to
`count` that publishes it to the subtraction that gives its slot back. -/
structure State (π : Type*) where
  slots : ℕ → Slot
  count : ℤ
  inserInd : ℕ
  holder : Option π
  producers : π → Producer
  extractInd : ℕ
  consumer : PopPc
  pushed : List Notif
  popped : List Notif
  overwritten : Bool

variable {π : Type*} [DecidableEq π]

/-- `xpmem_notif_init_queue`; the slots keep what the memory held. -/
def init (memory : ℕ → Slot) : State π where
  slots := memory
  count := 0
  inserInd := 0
  holder := none
  producers _ := ⟨.idle, ⟨0, 0⟩⟩
  extractInd := 0
  consumer := .idle
  pushed := []
  popped := []
  overwritten := false

namespace State

def setPc (s : State π) (p : π) (pc : PushPc) : State π :=
  { s with producers := Function.update s.producers p { s.producers p with pc := pc } }

/-- A write to the slot array; the history notes if an unread notification was there. -/
def write (s : State π) (ind : ℕ) (slot : Slot) : State π :=
  { s with
    slots := Function.update s.slots ind slot
    overwritten := s.overwritten ∨ Occupied numDstCqEntries s.popped.length s.pushed.length ind }

/-- One step of `xpmem_notif_push`. -/
def push (s : State π) (p : π) : Option (State π) :=
  let arg := (s.producers p).arg
  match (s.producers p).pc with
  | .idle => none
  | .checkCount =>
    if s.count < numDstCqEntries then some (s.setPc p .lock) else some s
  | .lock =>
    if s.holder = none then some { s.setPc p .readInserInd with holder := some p } else none
  | .readInserInd => some (s.setPc p (.writeTag s.inserInd))
  | .writeTag ind =>
    some ((s.write ind { s.slots ind with tag := arg.tag }).setPc p (.writeSource ind))
  | .writeSource ind =>
    some ((s.write ind { s.slots ind with source := arg.source }).setPc p (.writeSize ind))
  | .writeSize ind =>
    some ((s.write ind { s.slots ind with size := 0 }).setPc p (.writeInserInd ind))
  | .writeInserInd ind =>
    some { s.setPc p .addCount with inserInd := (ind + 1) % numDstCqEntries }
  | .addCount => some { s.setPc p .unlock with count := s.count + 1, pushed := s.pushed ++ [arg] }
  | .unlock => some { s.setPc p .idle with holder := none }

/-- One step of `xpmem_notif_pop`. Inline data, present if the size is positive, is copied from
the slot to the target and does not concern the queue. -/
def pop (s : State π) : State π :=
  match s.consumer with
  | .idle => if s.count = 0 then s else { s with consumer := .readSource }
  | .readSource => { s with consumer := .readTag (s.slots s.extractInd).source }
  | .readTag source => { s with consumer := .readSize source (s.slots s.extractInd).tag }
  | .readSize source tag => { s with consumer := .advance source tag }
  | .advance source tag =>
    { s with
      extractInd := (s.extractInd + 1) % numDstCqEntries
      consumer := .subCount source tag }
  | .subCount source tag =>
    { s with
      count := s.count - 1
      consumer := .idle
      popped := s.popped ++ [⟨source, tag⟩] }

end State

inductive Action (π : Type*)
  | call (p : π) (arg : Notif)
  | push (p : π)
  | pop
  deriving DecidableEq, Repr

/-- A producer enters `xpmem_notif_push`, goes on with it, or the consumer polls. -/
def step (s : State π) : Action π → Option (State π)
  | .call p arg =>
    if (s.producers p).pc = .idle then
      some { s with producers := Function.update s.producers p ⟨.checkCount, arg⟩ }
    else none
  | .push p => s.push p
  | .pop => some s.pop

/-- A producer is inside its critical section. -/
def PushPc.inside : PushPc → Bool
  | .idle | .checkCount | .lock => false
  | _ => true

/-- What a bounded queue owes its users. -/
structure Bounded (s : State π) : Prop where
  capacity : s.pushed.length ≤ s.popped.length + numDstCqEntries
  intact : s.overwritten = false
  fifo : s.popped <+: s.pushed
  counted : (∀ p, (s.producers p).pc.inside = false) →
    s.count = (s.pushed.length : ℤ) - s.popped.length

/-- The fullness test, repeated where a producer first writes its slot. -/
def Roomy (s : State π) (a : Action π) (_ : State π) : Prop :=
  ∀ p ind, a = .push p → (s.producers p).pc = .writeTag ind → s.count < numDstCqEntries

end FoMPI.XpmemQueue
