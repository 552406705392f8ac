import FoMPI.Foundation.Transition
import FoMPI.Window.Locality

/-!
# Notification matching

`_foMPI_NotificationReceived_direct` over the unexpected queue, the on-node queue
and the destination completion queue of a window, one queue operation at a time.
Both hardware queues are lossless; notifications arrive between any two operations.
-/
namespace FoMPI.Notif
open FoMPI.Foundation FoMPI.Window

def anySource : ℤ := -1

def anyTag : ℤ := -2

/-- A notification, numbered in the order of arrival. -/
structure Msg where
  id : ℕ
  source : BitVec 16
  tag : BitVec 16
  deriving DecidableEq, Repr

/-- `_foMPI_DecodeID`. -/
def decodeID (idEncoded : BitVec 32) : BitVec 16 × BitVec 16 :=
  ((idEncoded >>> 16).setWidth 16, (idEncoded &&& 0xffff#32).setWidth 16)

/-- The fixed part of `foMPI_Notification_request_t`. -/
structure Args where
  sourceRank : ℤ
  tag : ℤ
  count : ℤ
  deriving DecidableEq, Repr

/-- The comparison made for an event of a hardware queue. -/
def Args.accepts (a : Args) (m : Msg) : Bool :=
  (m.source.toNat = a.sourceRank ∨ a.sourceRank = anySource) ∧ (m.tag.toNat = a.tag ∨ a.tag = anyTag)

section UnexpectedQueue

/-- `unsigned int size`: what was pushed less what was removed. -/
def uqSize (uq : List Msg) : BitVec 32 := BitVec.ofNat 32 uq.length

/-- `_fompi_notif_uq_isEmpty`. -/
def uqIsEmpty (uq : List Msg) : Bool := uqSize uq = 0

/-- `_fompi_notif_uq_push`. The list runs from the tail of the queue to its head. -/
def uqPush (uq : List Msg) (m : Msg) : List Msg := uq ++ [m]

/-- `_fompi_notif_uq_pop`. -/
def uqPop (uq : List Msg) : Option (Msg × List Msg) :=
  if uqSize uq = 0 then none
  else
    match uq with
    | [] => none
    | m :: rest => some (m, rest)

/-- The loop of `_fompi_notif_uq_search_remove_internal`. -/
def uqSearch (sourceIn : BitVec 16) (wildcardSource : Bool) (tagIn : BitVec 16)
    (wildcardTag : Bool) : List Msg → Option (Msg × List Msg)
  | [] => none
  | m :: rest =>
    if (wildcardSource ∨ m.source = sourceIn) ∧ (wildcardTag ∨ m.tag = tagIn) then some (m, rest)
    else (uqSearch sourceIn wildcardSource tagIn wildcardTag rest).map fun r => (r.1, m :: r.2)

/-- `_fompi_notif_uq_search_remove_internal`. -/
def uqSearchRemoveInternal (sourceIn : BitVec 16) (wildcardSource : Bool) (tagIn : BitVec 16)
    (wildcardTag : Bool) (uq : List Msg) : Option (Msg × List Msg) :=
  if uqSize uq = 0 then none else uqSearch sourceIn wildcardSource tagIn wildcardTag uq

def uqSearchRemove (source tag : BitVec 16) : List Msg → Option (Msg × List Msg) :=
  uqSearchRemoveInternal source false tag false

def uqSearchRemoveTag (tag : BitVec 16) : List Msg → Option (Msg × List Msg) :=
  uqSearchRemoveInternal 0 true tag false

def uqSearchRemoveSrc (source : BitVec 16) : List Msg → Option (Msg × List Msg) :=
  uqSearchRemoveInternal source false 0 true

/-- The search that fits the wildcards of the request; selectors are cast to 16 bits. -/
def takeUnexpected (a : Args) (uq : List Msg) : Option (Msg × List Msg) :=
  if uqIsEmpty uq then none
  else if a.sourceRank = anySource ∧ a.tag = anyTag then uqPop uq
  else if a.tag = anyTag then uqSearchRemoveSrc (BitVec.ofInt 16 a.sourceRank) uq
  else if a.sourceRank = anySource then uqSearchRemoveTag (BitVec.ofInt 16 a.tag) uq
  else uqSearchRemove (BitVec.ofInt 16 a.sourceRank) (BitVec.ofInt 16 a.tag) uq

end UnexpectedQueue

/-- The three queues of a window. -/
structure Queues where
  uq : List Msg
  onNode : List Msg
  cq : List Msg

/-- `local` and `remote`: which hardware queues a selector is looked for in. -/
def pollsXpmem (w : Locality) (a : Args) : Bool :=
  !w.dynamic && (a.sourceRank = anySource || w.onnodeRankGlobalToLocal a.sourceRank ≠ -1)

def pollsUgni (w : Locality) (a : Args) : Bool :=
  !pollsXpmem w a || a.sourceRank = anySource

/-- What the function stores in the status; `none` is a field it leaves or a variable it never set. -/
structure Status where
  elements : ℤ
  source : Option ℤ
  tag : Option ℤ
  deriving DecidableEq, Repr

/-- Where a call is: in the search of the unexpected queue, at the head of the polling loop, at the
poll of the completion queue, or done. -/
inductive Pc
  | unexpected
  | xpmem
  | ugni
  | returned (flag : Bool) (status : Status)
  deriving DecidableEq, Repr

/-- A call: its position, `found` of its request, and the notification it has read last. -/
structure Frame where
  pc : Pc
  found : ℤ
  last : Option Msg
  deriving DecidableEq, Repr

/-- The status at the end of the function. -/
def Frame.status (a : Args) (f : Frame) : Status :=
  if a.count = f.found then
    if a.count = 1 then ⟨f.found, f.last.map (·.source.toNat), f.last.map (·.tag.toNat)⟩
    else ⟨f.found, some a.sourceRank, some a.tag⟩
  else ⟨f.found, none, none⟩

def Frame.finish (a : Args) (f : Frame) : Frame :=
  { f with pc := .returned (a.count = f.found) (f.status a) }

/-- One event of a hardware queue: it counts for the request or goes to the unexpected queue. -/
def dispatch (a : Args) (uq : List Msg) (f : Frame) (m : Msg) : List Msg × Frame × Option Msg :=
  if a.accepts m then (uq, { f with pc := .xpmem, found := f.found + 1, last := some m }, some m)
  else (uqPush uq m, { f with pc := .xpmem, last := some m }, none)

/-- One operation of `_foMPI_NotificationReceived_direct`; the third component is the notification
that was counted for the request. -/
def advance (w : Locality) (a : Args) (wait : Bool) (q : Queues) (f : Frame) :
    Queues × Frame × Option Msg :=
  match f.pc with
  | .unexpected =>
    if f.found < a.count then
      match takeUnexpected a q.uq with
      | some (m, uq) => ({ q with uq := uq }, { f with found := f.found + 1, last := some m }, some m)
      | none => (q, { f with pc := .xpmem }, none)
    else (q, { f with pc := .xpmem }, none)
  | .xpmem =>
    if f.found < a.count then
      if pollsXpmem w a then
        match q.onNode with
        | m :: rest =>
          let (uq, f, counted) := dispatch a q.uq f m
          ({ q with uq := uq, onNode := rest }, f, counted)
        | [] =>
          if pollsUgni w a then (q, { f with pc := .ugni }, none)
          else (q, if wait then f else f.finish a, none)
      else (q, { f with pc := .ugni }, none)
    else (q, f.finish a, none)
  | .ugni =>
    match q.cq with
    | m :: rest =>
      let (uq, f, counted) := dispatch a q.uq f m
      ({ q with uq := uq, cq := rest }, f, counted)
    | [] => (q, if wait then { f with pc := .xpmem } else f.finish a, none)
  | .returned _ _ => (q, f, none)

/-- `_foMPI_Notification_activate`: start counting again only if all were found. -/
def activate (a : Args) (found : ℤ) : ℤ := if found = a.count then 0 else found

/-- A call under way. -/
structure Call (ρ : Type*) where
  request : ρ
  wait : Bool
  frame : Frame

/-- The window, its requests, and the history of a run. `lateXpmem` and `lateUgni` hold what has
arrived in a hardware queue during the present call, since the call has last found it empty. -/
structure State (ρ : Type*) where
  queues : Queues
  found : ρ → ℤ
  active : ρ → Bool
  call : Option (Call ρ)
  arrived : List Msg
  consumed : List (ρ × Msg)
  lateXpmem : List Msg
  lateUgni : List Msg

inductive Action (ρ : Type*)
  | arriveXpmem (source tag : BitVec 16)
  | arriveUgni (idEncoded : BitVec 32)
  | start (k : ρ)
  | testWait (k : ρ) (wait : Bool)
  | run
  | finish

variable {ρ : Type*} [DecidableEq ρ]

def init : State ρ := ⟨⟨[], [], []⟩, fun _ => 0, fun _ => false, none, [], [], [], []⟩

/-- The next operation of the call `c`. -/
def State.run (w : Locality) (args : ρ → Args) (s : State ρ) (c : Call ρ) : State ρ :=
  let r := advance w (args c.request) c.wait s.queues c.frame
  { s with
    queues := r.1
    found := Function.update s.found c.request r.2.1.found
    call := some { c with frame := r.2.1 }
    consumed := s.consumed ++ r.2.2.toList.map (c.request, ·)
    lateXpmem := if c.frame.pc = .xpmem ∧ s.queues.onNode = [] then [] else s.lateXpmem
    lateUgni := if c.frame.pc = .ugni ∧ s.queues.cq = [] then [] else s.lateUgni }

/-- A sender uses the on-node queue exactly if its rank is on the node of a window that is not
dynamic. A completion queue event is decoded here as it would be when it is read. A call on an
inactive request returns at once. `foMPI_Test` deactivates a request that has completed;
`foMPI_Wait` tests a flag that its wait function does not set. -/
def step (w : Locality) (args : ρ → Args) (s : State ρ) : Action ρ → Option (State ρ)
  | .arriveXpmem source tag =>
    let m : Msg := ⟨s.arrived.length, source, tag⟩
    if w.viaXpmem source.toNat then
      some { s with
        queues := { s.queues with onNode := s.queues.onNode ++ [m] }
        arrived := s.arrived ++ [m]
        lateXpmem := s.lateXpmem ++ [m] }
    else none
  | .arriveUgni idEncoded =>
    let m : Msg := ⟨s.arrived.length, (decodeID idEncoded).1, (decodeID idEncoded).2⟩
    if w.viaXpmem m.source.toNat then none
    else some { s with
      queues := { s.queues with cq := s.queues.cq ++ [m] }
      arrived := s.arrived ++ [m]
      lateUgni := s.lateUgni ++ [m] }
  | .start k =>
    if s.call.isNone then
      some { s with
        found := Function.update s.found k (activate (args k) (s.found k))
        active := Function.update s.active k true }
    else none
  | .testWait k wait =>
    if s.call.isNone then
      if s.active k then
        some { s with
          call := some ⟨k, wait, ⟨.unexpected, s.found k, none⟩⟩
          lateXpmem := []
          lateUgni := [] }
      else some s
    else none
  | .run =>
    s.call.bind fun c =>
      match c.frame.pc with
      | .returned _ _ => none
      | _ => some (s.run w args c)
  | .finish =>
    s.call.bind fun c =>
      match c.frame.pc with
      | .returned flag _ =>
        some { s with
          active := Function.update s.active c.request (!(!c.wait && flag) && s.active c.request)
          call := none }
      | _ => none

end FoMPI.Notif
