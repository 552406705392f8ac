import FoMPI.Req.Model
import FoMPI.RmaNotify.Network

/-!
# Request-based calls

`foMPI_Rput` and its relatives on the heap: which object `*request` points to afterwards
and which of its fields have been written. What the calls do on the network does not
depend on the request and is a parameter.
-/
namespace FoMPI.RmaRequest
open FoMPI.Req (Rma Status World)
open FoMPI.RmaNotify (Operation)
open FoMPI.Notif (anyTag)

variable {ω κ σ : Type*}

inductive RequestType
  | notPersistent | persistent
  deriving DecidableEq

/-- A function of a request, or a null pointer. -/
inductive Function
  | null | simpleRmaTest | simpleRmaWait | freeWrapper | other
  deriving DecidableEq

/-- `foMPI_Request_t`. A field that was not written since the allocation is `none`. -/
structure Object (ω : Type*) where
  testFun : Option Function
  waitFun : Option Function
  activateFun : Option Function
  cancelFun : Option Function
  freeFun : Option Function
  extraState : Option (Req.Request ω)
  type : Option RequestType
  active : Option Bool

/-- The address of a request; `none` is `foMPI_REQUEST_NULL`. -/
abbrev Pointer := Option ℕ

/-- The objects that are allocated, what `*request` holds, and the rest of the process. -/
structure State (ω σ : Type*) where
  heap : ℕ → Option (Object ω)
  request : Pointer
  rest : σ

/-- The arguments that the calls look at. -/
structure Args (ω : Type*) where
  win : ω
  originCount : ℤ
  resultCount : ℤ
  targetRank : ℤ
  targetCount : ℤ
  tag : ℤ
  /-- A number for the operation. -/
  id : ℕ

def Args.rma (a : Args ω) : Rma ω := ⟨a.id, a.win, a.targetCount, a.targetRank⟩

def mpiSuccess : ℤ := 0

/-- The functions that the calls hand their transfer to, with their return codes. One that does not
return has no result. -/
structure Network (ω σ : Type*) where
  communicationAndDatatypeHandling : Operation → Args ω → σ → Option (ℤ × σ)
  accumulate : Args ω → σ → Option (ℤ × σ)
  getAccumulate : Args ω → σ → Option (ℤ × σ)
  rmaNotify : Operation → Args ω → σ → Option (ℤ × σ)
  /-- `MPI_PROC_NULL` -/
  procNull : ℤ

section Calls

/-- The fields that all of the calls write. -/
def newObject (a : Args ω) : Object ω where
  testFun := some .simpleRmaTest
  waitFun := some .simpleRmaWait
  activateFun := none
  cancelFun := some .null
  freeFun := some .freeWrapper
  extraState := some (.rma a.rma)
  type := some .notPersistent
  active := none

/-- The allocation at `p`, which is not in use. -/
def allocate (p : ℕ) (a : Args ω) (s : State ω σ) : Option (State ω σ) :=
  match s.heap p with
  | none => some { s with heap := Function.update s.heap p (some (newObject a)), request := some p }
  | some _ => none

/-- Go on with what a function returns. -/
def State.call (s : State ω σ) (f : σ → Option (ℤ × σ)) : Option (ℤ × State ω σ) :=
  (f s.rest).map fun r => (r.1, { s with rest := r.2 })

variable (N : Network ω σ) (a : Args ω) (p : ℕ)

/-- What the put and the get have in common. -/
def rtransfer (operation : Operation) (s : State ω σ) : Option (ℤ × State ω σ) :=
  if a.targetRank = N.procNull ∨ a.originCount = 0 ∨ a.targetCount = 0 then some (mpiSuccess, s)
  else do
    let s ← allocate p a s
    s.call (N.communicationAndDatatypeHandling operation a)

/-- `foMPI_Rput` -/
def rput : State ω σ → Option (ℤ × State ω σ) := rtransfer N a p .put

/-- `foMPI_Rget` -/
def rget : State ω σ → Option (ℤ × State ω σ) := rtransfer N a p .get

/-- The request of an accumulate is made behind it. -/
def thenAllocate (called : Option (ℤ × State ω σ)) : Option (ℤ × State ω σ) := do
  let (res, s) ← called
  let s ← allocate p a s
  return (res, s)

/-- `foMPI_Raccumulate` -/
def raccumulate (s : State ω σ) : Option (ℤ × State ω σ) :=
  thenAllocate a p
    (if 0 < a.originCount ∧ 0 < a.targetCount then s.call (N.accumulate a) else some (mpiSuccess, s))

/-- `foMPI_Rget_accumulate` -/
def rgetAccumulate (s : State ω σ) : Option (ℤ × State ω σ) :=
  thenAllocate a p
    (if 0 < a.targetCount ∧ 0 < a.resultCount then s.call (N.getAccumulate a) else some (mpiSuccess, s))

/-- `_foMPI_Rrma_notify` -/
def rrmaNotify (operation : Operation) (s : State ω σ) : Option (ℤ × State ω σ) :=
  if a.targetRank = N.procNull then some (mpiSuccess, s)
  else do
    let s ← allocate p a s
    s.call (N.rmaNotify operation a)

/-- `foMPI_Rput_notify` -/
def rputNotify (s : State ω σ) : Option (ℤ × State ω σ) :=
  if a.tag = anyTag then rput N a p s else rrmaNotify N a p .put s

/-- `foMPI_Rget_notify` -/
def rgetNotify (s : State ω σ) : Option (ℤ × State ω σ) :=
  if a.tag = anyTag then rget N a p s else rrmaNotify N a p .get s

end Calls

/-- The request-based calls. -/
inductive Routine
  | rput | rget | raccumulate | rgetAccumulate | rputNotify | rgetNotify

def Routine.run (N : Network ω σ) (a : Args ω) (p : ℕ) : Routine → State ω σ → Option (ℤ × State ω σ)
  | rput => RmaRequest.rput N a p
  | rget => RmaRequest.rget N a p
  | raccumulate => RmaRequest.raccumulate N a p
  | rgetAccumulate => RmaRequest.rgetAccumulate N a p
  | rputNotify => RmaRequest.rputNotify N a p
  | rgetNotify => RmaRequest.rgetNotify N a p

section Completion

/-- The request that the fields amount to, if all that `_foMPI_Test_Wait` and `foMPI_Request_free` read
have been written. -/
def Object.request (o : Object ω) : Option (Req.Request ω) :=
  match o.type, o.extraState with
  | some .notPersistent, some (.rma r) =>
    if o.testFun = some .simpleRmaTest ∧ o.waitFun = some .simpleRmaWait ∧ o.freeFun = some .freeWrapper then
      some (.rma r)
    else none
  | some .persistent, some (.notification n) => o.active.map fun active => .notification { n with active := active }
  | _, _ => none

/-- The handle as the completion functions find it; `none` if they would read freed memory or a field
that was never written. -/
def State.handle (s : State ω σ) : Option (Req.Handle ω) :=
  match s.request with
  | none => some none
  | some p => (s.heap p).bind fun o => o.request.map some

variable [DecidableEq ω] [DecidableEq κ]

/-- `_foMPI_Test_Wait` on `*request`. -/
def testWait (W : World ω κ) (s : State ω σ) (wait : Bool) : Option (Req.Outcome ω κ) :=
  s.handle.bind fun h => Req.testWait W h wait

end Completion

end FoMPI.RmaRequest
