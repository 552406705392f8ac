import FoMPI.Foundation.DoubleLinks
import FoMPI.Foundation.Fifo
import FoMPI.Foundation.Transition
import Mathlib.Data.BitVec

/-!
# The unexpected queue

`fompi_notif_uq_t` on a heap of nodes of addresses `α`: `head` is the newest node, `tail`
the oldest, `next` leads towards the tail and `prev` towards the head. An operation
without a value dereferences a null pointer or does not end. `malloc` returns any
address that is not in use.
-/
namespace FoMPI.Uq
open FoMPI.Foundation

/-- The source and the tag of a notification. -/
abbrev Entry := BitVec 16 × BitVec 16

/-- `fompi_notif_node_t`. -/
structure Node (α : Type*) where
  next : Option α
  prev : Option α
  tag : BitVec 16
  source : BitVec 16

/-- What the addresses hold. -/
abbrev Heap (α : Type*) := α → Node α

/-- `fompi_notif_uq_t`, the heap, and the addresses in use on it. -/
structure State (α : Type*) where
  head : Option α
  tail : Option α
  size : BitVec 32
  heap : Heap α
  live : List α

variable {α : Type*}

namespace Heap

def next (h : Heap α) (a : α) : Option α := (h a).next

def prev (h : Heap α) (a : α) : Option α := (h a).prev

def entry (h : Heap α) (a : α) : Entry := ((h a).source, (h a).tag)

variable [DecidableEq α]

def setNext (h : Heap α) (a : α) (v : Option α) : Heap α := Function.update h a { h a with next := v }

def setPrev (h : Heap α) (a : α) (v : Option α) : Heap α := Function.update h a { h a with prev := v }

def setEntry (h : Heap α) (a : α) (source tag : BitVec 16) : Heap α :=
  Function.update h a { h a with source := source, tag := tag }

end Heap

/-- `_fompi_notif_uq_init`. -/
def init (heap : Heap α) : State α := ⟨none, none, 0, heap, []⟩

/-- What an operation returns. -/
inductive Result
  | pushed
  | noMatch
  | matched (x : Entry)
  deriving DecidableEq, Repr

namespace State

variable [DecidableEq α]

def setNext (s : State α) (a : α) (v : Option α) : State α := { s with heap := s.heap.setNext a v }

def setPrev (s : State α) (a : α) (v : Option α) : State α := { s with heap := s.heap.setPrev a v }

/-- `_uq_node_create`, with the address that `malloc` returns. -/
def nodeCreate (s : State α) (source tag : BitVec 16) (node : α) : State α :=
  { s with heap := s.heap.setEntry node source tag, live := node :: s.live }

/-- `_uq_node_free`. -/
def nodeFree (s : State α) (node : α) : State α := { s with live := s.live.erase node }

/-- `_uq_insert_head`. -/
def insertHead (s : State α) (node : α) : State α :=
  let s := s.setNext node s.head
  let s :=
    match s.head with
    | some h => s.setPrev h (some node)
    | none => { s with tail := some node }
  let s := { s with head := some node }
  let s := s.setPrev node none
  { s with size := s.size + 1 }

/-- `_uq_remove_tail`. -/
def removeTail (s : State α) : Option (Option α × State α) :=
  if s.size ≠ 0 then do
    let node ← s.tail
    let s :=
      match s.heap.prev node with
      | some p => s.setNext p none
      | none => { s with head := none }
    let s := { s with tail := s.heap.prev node, size := s.size - 1 }
    return (some node, s)
  else some (none, s)

/-- `_uq_node_detach`. -/
def nodeDetach (s : State α) (node : α) : Option (State α) := do
  let s ←
    if some node ≠ s.tail ∧ some node ≠ s.head then do
      let p ← s.heap.prev node
      let s := s.setNext p (s.heap.next node)
      let n ← s.heap.next node
      some (s.setPrev n (s.heap.prev node))
    else some s
  let s := if some node = s.tail ∧ some node = s.head then { s with tail := none, head := none } else s
  let s ←
    if some node = s.tail then do
      let s := { s with tail := s.heap.prev node }
      let p ← s.heap.prev node
      some (s.setNext p none)
    else some s
  let s ←
    if some node = s.head then do
      let s := { s with head := s.heap.next node }
      let n ← s.heap.next node
      some (s.setPrev n none)
    else some s
  return { s with size := s.size - 1 }

/-- The loop of `_fompi_notif_uq_search_remove_internal`, for at most `fuel` nodes. -/
def search (s : State α) (selects : Entry → Bool) : ℕ → Option α → Option (Option α)
  | _, none => some none
  | 0, some _ => none
  | fuel + 1, some node =>
    if selects (s.heap.entry node) then some (some node) else search s selects fuel (s.heap.prev node)

/-- `_fompi_notif_uq_push`. -/
def push (s : State α) (source tag : BitVec 16) (node : α) : State α :=
  (s.nodeCreate source tag node).insertHead node

/-- `_fompi_notif_uq_pop`. -/
def pop (s : State α) : Option (Result × State α) := do
  let (removed, s) ← s.removeTail
  match removed with
  | some node => return (.matched (s.heap.entry node), s.nodeFree node)
  | none => return (.noMatch, s)

/-- `_fompi_notif_uq_search_remove_internal`. -/
def searchRemoveInternal (s : State α) (selects : Entry → Bool) : Option (Result × State α) :=
  if s.size = 0 then some (.noMatch, s)
  else do
    let found ← s.search selects s.live.length s.tail
    match found with
    | some node => do
      let s ← s.nodeDetach node
      return (.matched (s.heap.entry node), s.nodeFree node)
    | none => return (.noMatch, s)

end State

inductive Action (α : Type*)
  | push (source tag : BitVec 16) (node : α)
  | pop
  | searchRemove (source tag : BitVec 16)
  | searchRemoveSrc (source : BitVec 16)
  | searchRemoveTag (tag : BitVec 16)

/-- The condition of the search, with its two wildcards. -/
def selects (sourceIn : BitVec 16) (wildcardSource : Bool) (tagIn : BitVec 16) (wildcardTag : Bool)
    (x : Entry) : Bool :=
  (wildcardSource ∨ x.1 = sourceIn) ∧ (wildcardTag ∨ x.2 = tagIn)

/-- The operations. A push to an address in use does not happen. -/
def perform [DecidableEq α] (s : State α) : Action α → Option (Result × State α)
  | .push source tag node => if node ∈ s.live then none else some (.pushed, s.push source tag node)
  | .pop => s.pop
  | .searchRemove source tag => s.searchRemoveInternal (selects source false tag false)
  | .searchRemoveSrc source => s.searchRemoveInternal (selects source false 0 true)
  | .searchRemoveTag tag => s.searchRemoveInternal (selects 0 true tag false)

section Abstract

/-- What an operation looks for. -/
def Action.wants : Action α → Entry → Bool
  | .push _ _ _, _ => false
  | .pop, _ => true
  | .searchRemove source tag, x => x = (source, tag)
  | .searchRemoveSrc source, x => x.1 = source
  | .searchRemoveTag tag, x => x.2 = tag

/-- The oldest notification that is wanted. -/
def takeFirst (wants : Entry → Bool) (q : List Entry) : Result × List Entry :=
  match removeFirst wants q with
  | some (x, rest) => (.matched x, rest)
  | none => (.noMatch, q)

/-- The queue as a list of notifications in insertion order. -/
def fifo (q : List Entry) : Action α → Result × List Entry
  | .push source tag _ => (.pushed, q ++ [(source, tag)])
  | o => takeFirst o.wants q

end Abstract

/-- The structure is well formed, with the nodes `as` from head to tail. -/
structure WellFormed (s : State α) (as : List α) : Prop where
  linked : Linked s.heap.next s.heap.prev s.head s.tail as
  live : s.live.Perm as
  size : s.size.toNat = as.length

/-- The notifications in the nodes, oldest first. -/
def State.content (s : State α) (as : List α) : List Entry := as.reverse.map s.heap.entry

/-- The structure and the list side by side. -/
def step [DecidableEq α] (s : State α × List Entry) (a : Action α) : Option (State α × List Entry) :=
  (perform s.1 a).map fun r => (r.2, (fifo s.2 a).2)

/-- A push finds room in `size`, an `unsigned int`. -/
def Roomy (s : State α × List Entry) (a : Action α) (_ : State α × List Entry) : Prop :=
  match a with
  | .push _ _ _ => s.1.size.toNat + 1 < 4294967296
  | _ => True

/-- An operation is given an address that is not in use. -/
def Fresh (s : State α) : Action α → Prop
  | .push _ _ node => node ∉ s.live
  | _ => True

end FoMPI.Uq
