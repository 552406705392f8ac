import FoMPI.Foundation.Bytes
import FoMPI.XpmemQueue.Model

/-!
# Notifications with inline data

`xpmem_notif_push_and_data`, `xpmem_notif_push` and `xpmem_notif_pop` on one queue,
each call as a whole. A call that waits for a queue that is full is not a step.
-/
namespace FoMPI.Inline
open FoMPI.Foundation FoMPI.XpmemQueue

/-- `_foMPI_XPMEM_NOTIF_INLINE_BUFF_SIZE`: a cache line without the fixed fields. -/
def notifInlineBuffSize : ℕ := 64 - 24

/-- `fompi_xpmem_notif_ex_t`. -/
structure NotifEx where
  tag : BitVec 16
  source : BitVec 16
  size : ℕ
  targetAddr : ℤ
  buff : ℤ → BitVec 8

/-- The arguments of `xpmem_notif_push_and_data`, with the bytes found at `origin_offset`. -/
structure Data where
  sourceRank : ℤ
  targetOffset : ℤ
  payload : List (BitVec 8)
  tag : ℤ
  fits : payload.length ≤ notifInlineBuffSize

/-- A call of one of the two producers. -/
inductive Push
  | data (d : Data)
  | plain (x : Notif)

namespace Push

/-- What identifies the notification, cut to 16 bits. -/
def notif : Push → Notif
  | data d => ⟨BitVec.ofInt 16 d.sourceRank, BitVec.ofInt 16 d.tag⟩
  | plain x => x

def payload : Push → List (BitVec 8)
  | data d => d.payload
  | plain _ => []

/-- The entry that a call leaves where `old` was. -/
def entry (old : NotifEx) : Push → NotifEx
  | data d =>
    { tag := BitVec.ofInt 16 d.tag
      source := BitVec.ofInt 16 d.sourceRank
      size := d.payload.length
      targetAddr := d.targetOffset
      buff := store old.buff 0 d.payload }
  | plain x => { old with tag := x.tag, source := x.source, size := 0 }

/-- What the payload is to do to the memory of the target. -/
def deliver (memory : ℤ → BitVec 8) : Push → ℤ → BitVec 8
  | data d => store memory d.targetOffset d.payload
  | plain _ => memory

end Push

/-- The queue, the indices of both sides, the memory of the target and the history: all calls of the
producers, and how many of them a pop has returned. -/
structure State where
  queueArray : ℕ → NotifEx
  count : ℤ
  inserInd : ℕ
  extractInd : ℕ
  memory : ℤ → BitVec 8
  pushed : List Push
  popped : ℕ

def init (queueArray : ℕ → NotifEx) (memory : ℤ → BitVec 8) : State :=
  ⟨queueArray, 0, 0, 0, memory, [], 0⟩

/-- How a pop ends; a failed assertion aborts the process. -/
inductive PopResult
  | empty
  | found (rank tag : BitVec 16)
  | aborted
  deriving DecidableEq, Repr

namespace State

def push (s : State) (p : Push) : State :=
  { s with
    queueArray := Function.update s.queueArray s.inserInd (p.entry (s.queueArray s.inserInd))
    inserInd := (s.inserInd + 1) % numDstCqEntries
    count := s.count + 1
    pushed := s.pushed ++ [p] }

/-- `xpmem_notif_pop`; the assertion is there unless `ndebug` holds. -/
def pop (ndebug : Bool) (s : State) : PopResult × State :=
  if s.count = 0 then (.empty, s)
  else
    let n := s.queueArray s.extractInd
    if 0 < n.size ∧ ndebug = false ∧ ¬n.size < notifInlineBuffSize then (.aborted, s)
    else
      (.found n.source n.tag,
        { s with
          -- the copy is made from the entry at `inser_ind`
          memory := store s.memory n.targetAddr (load (s.queueArray s.inserInd).buff 0 n.size)
          extractInd := (s.extractInd + 1) % numDstCqEntries
          count := s.count - 1
          popped := s.popped + 1 })

end State

inductive Action
  | push (p : Push)
  | pop

def step (ndebug : Bool) (s : State) : Action → Option State
  | .push p => if s.count < numDstCqEntries then some (s.push p) else none
  | .pop =>
    match s.pop ndebug with
    | (.aborted, _) => none
    | (_, t) => some t

/-- A pop returns the notification of a call and puts its payload where it belongs. -/
def Delivers (ndebug : Bool) (s : State) (p : Push) : Prop :=
  (s.pop ndebug).1 = .found p.notif.source p.notif.tag ∧ (s.pop ndebug).2.memory = p.deliver s.memory

/-- The next notification has no data; or the buffer of the entry that the next push will take, the
same entry when the queue is full, begins with the same bytes, and they do not fill it in a debug
build. -/
def Masked (ndebug : Bool) (s : State) : Prop :=
  let n := s.queueArray s.extractInd
  n.size = 0 ∨ (ndebug = true ∨ n.size < notifInlineBuffSize) ∧
    load (s.queueArray s.inserInd).buff 0 n.size = load n.buff 0 n.size

end FoMPI.Inline
