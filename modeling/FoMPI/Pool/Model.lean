import FoMPI.Foundation.Ring
import FoMPI.Foundation.Transition
import Mathlib.Data.BitVec
import Mathlib.Data.List.Range

/-!
# The post descriptors of a communicator

`_foMPI_Comm_get_ugni_data_descriptor` takes a descriptor from the ring `data_desc_ptr`,
and `ugni_Dequeue_local_event` puts one back for every completion that it finds. A
descriptor is named by its index in `data_desc_array`.
-/
namespace FoMPI.Pool
open FoMPI.Foundation

/-- `number_of_cq_entries`, a `uint32_t`. -/
structure CqEntries where
  n : ℕ
  pos : 0 < n
  width : n < 4294967296

/-- Where the owner of the communicator is: waiting in the flush of a `get`, or anywhere else. -/
inductive Pc
  | idle
  | flushing
  deriving DecidableEq, Repr

/-- The ring, and the descriptors that have been handed out and not recycled. -/
structure State where
  dataDescPtr : ℕ → ℕ
  counterUgniNbi : BitVec 64
  insInd : ℕ
  extrInd : ℕ
  inFlight : List ℕ
  pc : Pc

/-- `_foMPI_Comm_create`. -/
def init : State where
  dataDescPtr pi := pi
  counterUgniNbi := 0
  insInd := 0
  extrInd := 0
  inFlight := []
  pc := .idle

namespace State

/-- `_foMPI_Comm_get_ugni_data_descriptor` behind its flush. -/
def take (N : CqEntries) (s : State) : State :=
  { s with
    extrInd := (s.extrInd + 1) % N.n
    counterUgniNbi := s.counterUgniNbi + 1
    inFlight := s.dataDescPtr s.extrInd :: s.inFlight
    pc := .idle }

/-- `_foMPI_Comm_free_ugni_data_descriptor`. -/
def free (N : CqEntries) (s : State) (dataDescr : ℕ) : State :=
  { s with
    dataDescPtr := Function.update s.dataDescPtr s.insInd dataDescr
    insInd := (s.insInd + 1) % N.n
    counterUgniNbi := s.counterUgniNbi - 1 }

end State

inductive Action
  | get
  | dequeue (k : ℕ)
  | flushed
  deriving DecidableEq, Repr

/-- A call of `get`; the completion of a descriptor in flight, whichever it is, dequeued by the flush of
a `get` or by any other; and the end of the loop of the former. -/
def step (N : CqEntries) (s : State) : Action → Option State
  | .get =>
    match s.pc with
    | .idle => if N.n ≤ s.counterUgniNbi.toNat then some { s with pc := .flushing } else some (s.take N)
    | .flushing => none
  | .dequeue k =>
    s.inFlight[k]?.map fun d => { s.free N d with inFlight := s.inFlight.eraseIdx k }
  | .flushed =>
    match s.pc with
    | .idle => none
    | .flushing => if s.counterUgniNbi = 0 then some (s.take N) else none

/-- The slots from `extr_ind` on that are not used up. -/
def State.freeSlots (N : CqEntries) (s : State) : List ℕ :=
  arc N.n s.dataDescPtr s.extrInd (N.n - s.counterUgniNbi.toNat)

/-- What the pool owes those who post. -/
structure Sound (N : CqEntries) (s : State) : Prop where
  counter : s.counterUgniNbi.toNat = s.inFlight.length
  capacity : s.counterUgniNbi.toNat ≤ N.n
  once : (s.freeSlots N).Nodup
  free : ∀ d, d ∈ s.freeSlots N ↔ d < N.n ∧ d ∉ s.inFlight

end FoMPI.Pool
