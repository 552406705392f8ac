import FoMPI.Notif.Receive
import Mathlib.Logic.Function.Basic

/-!
# Requests

`fompi_req.c` and the completion functions that it calls through a request:
`foMPI_Rma_test_wait` for the requests of `foMPI_Rput` and its relatives, and
`_foMPI_NotificationReceived_direct` for those of `foMPI_Notify_init`. A handle
owns its request; null is `none`.
-/
namespace FoMPI.Req
open FoMPI.Window

/-- What the network does on its own. -/
inductive Event (ω : Type*)
  | arriveXpmem (win : ω) (m : Notif.Msg)
  | arriveUgni (win : ω) (m : Notif.Msg)
  | dmappDone (i : ℕ)
  | ugniDone (i : ℕ)

/-- What the calls read of the windows `ω` and the communicators `κ` of a process. Operations under
way are listed with the window or communicator that counts them and the request they belong to.
`script` holds the events to come, one batch before each poll. -/
structure World (ω κ : Type*) where
  locality : ω → Locality
  fompiComm : ω → κ
  queues : ω → Notif.Queues
  nbiCounter : ω → BitVec 32
  counterUgniNbi : κ → ℕ
  dmapp : List (ω × ℕ)
  ugni : List (κ × ℕ)
  script : List (List (Event ω))

/-- `foMPI_Rma_request_t`, with a number for the operation. -/
structure Rma (ω : Type*) where
  id : ℕ
  win : ω
  elements : ℤ
  source : ℤ
  deriving DecidableEq, Repr

/-- `foMPI_Notification_request_t` and the `active` flag of its request. -/
structure Notification (ω : Type*) where
  win : ω
  args : Notif.Args
  found : ℤ
  active : Bool
  deriving DecidableEq, Repr

/-- `foMPI_Request_t`: the type of a request comes with its functions. -/
inductive Request (ω : Type*)
  /-- `_foMPI_REQUEST_NOT_PERSISTENT` -/
  | rma (r : Rma ω)
  /-- `_foMPI_REQUEST_PERSISTENT` -/
  | notification (n : Notification ω)
  deriving DecidableEq, Repr

abbrev Handle (ω : Type*) := Option (Request ω)

/-- Handle variables by address. -/
abbrev Memory (ω : Type*) := ℕ → Handle ω

/-- What a call stores in the status: the empty status, the rank and element count of a
`foMPI_Rma_request_t` with tag and error `foMPI_UNDEFINED`, what a notification request reports, or
nothing. -/
inductive Status
  | empty
  | rma (source elements : ℤ)
  | notification (s : Notif.Status)
  | untouched
  deriving DecidableEq, Repr

inductive Fault
  | divisionByZero
  | overflow
  | unfinished
  deriving DecidableEq, Repr

/-- Return codes of `foMPI_Start`. -/
inductive Code
  | success
  | errRequest
  deriving DecidableEq, Repr

variable {ω κ : Type*} [DecidableEq ω] [DecidableEq κ]

section Network

def World.event (W : World ω κ) : Event ω → World ω κ
  | .arriveXpmem win m =>
    let q := W.queues win
    { W with queues := Function.update W.queues win { q with onNode := q.onNode ++ [m] } }
  | .arriveUgni win m =>
    let q := W.queues win
    { W with queues := Function.update W.queues win { q with cq := q.cq ++ [m] } }
  | .dmappDone i => { W with dmapp := W.dmapp.eraseIdx i }
  | .ugniDone i => { W with ugni := W.ugni.eraseIdx i }

def World.events (W : World ω κ) (batch : List (Event ω)) : World ω κ := batch.foldl World.event W

/-- The network moves on. -/
def World.tick (W : World ω κ) : World ω κ :=
  match W.script with
  | [] => W
  | batch :: script => { W.events batch with script := script }

/-- `_foMPI_Comm_flush_all_internal` -/
def World.commFlushAll (W : World ω κ) (comm : κ) : World ω κ :=
  if 0 < W.counterUgniNbi comm then
    { W with
      counterUgniNbi := Function.update W.counterUgniNbi comm 0
      ugni := W.ugni.filter (·.1 ≠ comm) }
  else W

/-- `dmapp_gsync_wait` completes the operations of all windows. -/
def World.gsyncWait (W : World ω κ) : World ω κ := { W with dmapp := [] }

/-- `foMPI_Win_flush_all` -/
def World.flushAll (W : World ω κ) (win : ω) : World ω κ :=
  let W := W.commFlushAll (W.fompiComm win)
  if 0 < W.nbiCounter win then
    { W.gsyncWait with nbiCounter := Function.update W.nbiCounter win 0 }
  else W

end Network

section Completion

/-- What a completion function leaves behind. -/
structure Reply (ω κ : Type*) where
  status : Status
  request : Request ω
  world : World ω κ

/-- `foMPI_Rma_test_wait` -/
def rmaTestWait (W : World ω κ) (r : Rma ω) (wait : Bool) : Bool × Reply ω κ :=
  if W.nbiCounter r.win = 0 ∧ W.counterUgniNbi (W.fompiComm r.win) = 0 then
    (true, ⟨.rma r.source r.elements, .rma r, W⟩)
  else if wait then (true, ⟨.untouched, .rma r, W.flushAll r.win⟩)
  else
    -- `dmapp_gsync_test`, overruled by operations of uGNI
    (if 0 < W.counterUgniNbi (W.fompiComm r.win) then false else W.dmapp.isEmpty,
      ⟨.untouched, .rma r, W⟩)

def Notification.reply (W : World ω κ) (n : Notification ω) (q : Notif.Queues) (f : Notif.Frame) :
    Reply ω κ :=
  ⟨.notification (f.status n.args), .notification { n with found := f.found },
    { W with queues := Function.update W.queues n.win q }⟩

/-- `_foMPI_NotificationReceived_direct_test` -/
def notificationTest (W : World ω κ) (n : Notification ω) : Bool × Reply ω κ :=
  let r := Notif.receivedDirect (W.locality n.win) n.args (W.queues n.win) n.found
  (n.args.count = r.2.found, n.reply W r.1 r.2)

/-- A round of operations of a call that waits, and what it returns if it is over. -/
def Notification.round (W : World ω κ) (n : Notification ω) (f : Notif.Frame) :
    Option (Reply ω κ) × World ω κ × Notif.Frame :=
  let q := W.queues n.win
  let r := Notif.operate (W.locality n.win) n.args true (Notif.budget q f) q f
  (match r.2.pc with
    | .returned _ _ => some (n.reply W r.1 r.2)
    | _ => none,
    { W with queues := Function.update W.queues n.win r.1 }, r.2)

/-- The loop of a call that waits: a round for each batch of events. -/
def notificationLoop (n : Notification ω) :
    List (List (Event ω)) → World ω κ → Notif.Frame → Option (Reply ω κ)
  | [], W, f => (n.round { W with script := [] } f).1
  | batch :: script, W, f =>
    let r := n.round { W with script := batch :: script } f
    match r.1 with
    | some p => some p
    | none => notificationLoop n script (r.2.1.events batch) r.2.2

/-- `_foMPI_NotificationReceived_direct_wait` -/
def notificationWait (W : World ω κ) (n : Notification ω) : Option (Reply ω κ) :=
  notificationLoop n W.script W ⟨.unexpected, n.found, none⟩

/-- `test_fun` -/
def Request.testFun (W : World ω κ) : Request ω → Bool × Reply ω κ
  | .rma r => rmaTestWait W r false
  | .notification n => notificationTest W n

/-- `wait_fun` -/
def Request.waitFun (W : World ω κ) : Request ω → Option (Reply ω κ)
  | .rma r => some (rmaTestWait W r true).2
  | .notification n => notificationWait W n

end Completion

section Calls

/-- Null, or a persistent request that is not active. -/
def idle : Handle ω → Bool
  | none => true
  | some (.rma _) => false
  | some (.notification n) => !n.active

structure Outcome (ω κ : Type*) where
  flag : Bool
  status : Status
  handle : Handle ω
  world : World ω κ

/-- The end of `_foMPI_Test_Wait`: a request that is not persistent is freed whatever the flag. -/
def settle (flag : Bool) (p : Reply ω κ) : Outcome ω κ :=
  ⟨flag, p.status,
    match p.request with
    | .rma _ => none
    | .notification n => some (.notification (if flag then { n with active := false } else n)),
    p.world⟩

/-- `_foMPI_Test_Wait`. The flag is that of `test_fun`; `wait_fun` does not set it. -/
def testWait (W : World ω κ) (h : Handle ω) (wait : Bool) : Option (Outcome ω κ) :=
  match h with
  | none => some ⟨true, .empty, none, W⟩
  | some r =>
    if idle (some r) then some ⟨true, .empty, some r, W⟩
    else if wait then (r.waitFun W).map (settle false)
    else some (settle (r.testFun W).1 (r.testFun W).2)

/-- `foMPI_Wait`; it is unfinished if the events to come do not suffice. -/
def wait (W : World ω κ) (h : Handle ω) : Except Fault (Outcome ω κ) :=
  match testWait W h true with
  | some o => .ok o
  | none => .error .unfinished

theorem testWait_isSome (W : World ω κ) (h : Handle ω) : (testWait W h false).isSome := by
  unfold testWait
  split
  · rfl
  · split <;> rfl

/-- `foMPI_Test`, which always returns. -/
def test (W : World ω κ) (h : Handle ω) : Outcome ω κ :=
  (testWait W h false).get (testWait_isSome W h)

/-- `foMPI_Start` -/
def start : Handle ω → Handle ω × Code
  | none => (none, .success)
  | some (.rma r) => (some (.rma r), .errRequest)
  | some (.notification n) =>
    (some (.notification { n with found := Notif.activate n.args n.found, active := true }), .success)

/-- `foMPI_Request_free` -/
def requestFree : Handle ω → Handle ω := fun _ => none

/-- The results of `_foMPI_Testany_internal`; no index is `MPI_UNDEFINED`. -/
structure Scan (ω κ : Type*) where
  flag : Bool
  index : Option ℕ
  status : Status
  mem : Memory ω
  world : World ω κ

/-- `randindex` over the iterations of the loop. -/
def order (count r : ℕ) : List ℕ := (List.range count).map fun i => (i + r) % count

/-- The loop of `_foMPI_Testany_internal` over the array at `base`, and the test after it. -/
def scan (base count : ℕ) : List ℕ → ℕ → Memory ω → World ω κ → Scan ω κ
  | [], inactive, mem, W => ⟨inactive = count, none, .untouched, mem, W⟩
  | i :: rest, inactive, mem, W =>
    if idle (mem (base + i)) then scan base count rest (inactive + 1) mem W
    else
      let o := test W.tick (mem (base + i))
      if o.flag then ⟨true, some i, o.status, Function.update mem (base + i) o.handle, o.world⟩
      else scan base count rest inactive (Function.update mem (base + i) (start o.handle).1) o.world

/-- `_foMPI_Testany_internal`, where `rand` is what `rand_r` returns. `i + r` is a sum of two `int`, which overflows
in the iterations from `2147483648 - r` on if the loop gets there. -/
def testany (base count rand : ℕ) (mem : Memory ω) (W : World ω κ) : Except Fault (Scan ω κ) :=
  if count = 0 then .error .divisionByZero
  else
    let r := rand % count
    let s := scan base count ((order count r).take (2147483648 - r)) 0 mem W
    if s.index = none ∧ 2147483648 < r + count then .error .overflow else .ok s

/-- `foMPI_Waitany`, which is unfinished if no pass of those given ends it. -/
def waitany (base count : ℕ) : List ℕ → Memory ω → World ω κ → Except Fault (Scan ω κ)
  | [], _, _ => .error .unfinished
  | rand :: rands, mem, W =>
    match testany base count rand mem W with
    | .error e => .error e
    | .ok s => if s.flag then .ok s else waitany base count rands s.mem s.world

end Calls

end FoMPI.Req
