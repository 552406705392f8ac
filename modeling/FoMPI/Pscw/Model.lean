import FoMPI.Foundation.Transition
import FoMPI.Window.Locality
import Mathlib.Data.BitVec
import Mathlib.Logic.Function.Basic

/-!
# General active-target synchronization

`foMPI_Win_post`, `foMPI_Win_start`, `foMPI_Win_complete`, `foMPI_Win_wait` and
`foMPI_Win_test` of the processes `ι` of a window, one access to a shared counter at
a time. An increment for a process on the same node takes effect at once; the others
are in flight until they are delivered, in any order. The flush at the head of
`foMPI_Win_complete` only waits; leaving it out adds interleavings and removes none.
-/
namespace FoMPI.Pscw
open FoMPI.Foundation FoMPI.Window

variable {ι : Type*} [DecidableEq ι]

/-- An `MPI_Group` of ranks of the window: its members are distinct, and its size is an `int`. -/
structure Group (ι : Type*) where
  ranks : List ι
  nodup : ranks.Nodup
  size : ranks.length < 2147483648

/-- Where a process is in its access epochs; `i` is the index of the loop. -/
inductive Access (ι : Type*)
  | closed
  | starting (group : Group ι) (i : ℕ)
  | opened (group : Group ι)
  | completing (group : Group ι) (i : ℕ)

inductive Counter
  | globalCounter
  | xpmemGlobalCounter
  deriving DecidableEq, Repr

/-- Where a process is in its exposure epochs. `foMPI_Win_wait` and `foMPI_Win_test` add two counters;
`polled` has read the first of them. -/
inductive Exposure (ι : Type*)
  | closed
  | clearing (group : Group ι)
  | posting (group : Group ι) (i : ℕ)
  | opened (group : Group ι)
  | polling (group : Group ι) (wait : Bool)
  | polled (group : Group ι) (wait : Bool) (first : Counter) (value : BitVec 64)

/-- A remote increment: of `pscw_matching_exposure[poster]` at `origin`, or of `global_counter` at
`target`. -/
inductive Increment (ι : Type*)
  | matchingExposure (origin poster : ι)
  | globalCounter (target : ι)
  deriving DecidableEq, Repr

/-- The counters of all processes, and a record of what they have executed: `starts i j` counts the
access epochs of `i` with target `j`, `posts j i` the posts of `j` that named `i`, and
`completes i j` the completes of `i` that have notified `j`. -/
structure State (ι : Type*) where
  matchingAccess : ι → ι → BitVec 32
  matchingExposure : ι → ι → BitVec 64
  globalCounter : ι → BitVec 64
  xpmemGlobalCounter : ι → BitVec 64
  access : ι → Access ι
  exposure : ι → Exposure ι
  inFlight : List (Increment ι)
  starts : ι → ι → ℕ
  posts : ι → ι → ℕ
  completes : ι → ι → ℕ

/-- The windows that the processes see, and their ranks. -/
structure Layout (ι : Type*) where
  window : ι → Locality
  rank : ι → ℤ

def Layout.viaXpmem (l : Layout ι) (p q : ι) : Bool := (l.window p).viaXpmem (l.rank q)

def init : State ι where
  matchingAccess _ _ := 0#32
  matchingExposure _ _ := 0#64
  globalCounter _ := 0#64
  xpmemGlobalCounter _ := 0#64
  access _ := .closed
  exposure _ := .closed
  inFlight := []
  starts _ _ := 0
  posts _ _ := 0
  completes _ _ := 0

/-- Change the entry of `p` and `q`. -/
def update₂ {α : Type*} (f : ι → ι → α) (p q : ι) (a : α) : ι → ι → α :=
  Function.update f p (Function.update (f p) q a)

namespace State

/-- An increment takes effect. -/
def apply (s : State ι) : Increment ι → State ι
  | .matchingExposure origin poster =>
    { s with
      matchingExposure := update₂ s.matchingExposure origin poster (s.matchingExposure origin poster + 1#64) }
  | .globalCounter target =>
    { s with globalCounter := Function.update s.globalCounter target (s.globalCounter target + 1#64) }

/-- `foMPI_Win_start` up to the loop that waits. -/
def winStart (s : State ι) (p : ι) (group : Group ι) : State ι :=
  { s with
    matchingAccess := Function.update s.matchingAccess p
      (group.ranks.foldl (fun access q => Function.update access q (access q + 1#32)) (s.matchingAccess p))
    access := Function.update s.access p (.starting group 0)
    starts := Function.update s.starts p fun q =>
      if q ∈ group.ranks then s.starts p q + 1 else s.starts p q }

/-- One look at the exposure of the `i`-th target. -/
def awaitPost (s : State ι) (p : ι) (group : Group ι) (i : ℕ) : State ι :=
  match group.ranks[i]? with
  | none => { s with access := Function.update s.access p (.opened group) }
  | some q =>
    if (s.matchingAccess p q).setWidth 64 = s.matchingExposure p q then
      { s with access := Function.update s.access p (.starting group (i + 1)) }
    else s

/-- The `i`-th increment of `foMPI_Win_complete`. -/
def notifyTarget (l : Layout ι) (s : State ι) (p : ι) (group : Group ι) (i : ℕ) : State ι :=
  match group.ranks[i]? with
  | none => { s with access := Function.update s.access p .closed }
  | some q =>
    let s := { s with
      access := Function.update s.access p (.completing group (i + 1))
      completes := update₂ s.completes p q (s.completes p q + 1) }
    if l.viaXpmem p q then
      { s with
        xpmemGlobalCounter := Function.update s.xpmemGlobalCounter q (s.xpmemGlobalCounter q + 1#64) }
    else { s with inFlight := .globalCounter q :: s.inFlight }

/-- `foMPI_Win_post` up to the reset of `xpmem_global_counter`. -/
def winPost (s : State ι) (p : ι) (group : Group ι) : State ι :=
  { s with
    globalCounter := Function.update s.globalCounter p 0#64
    exposure := Function.update s.exposure p (.clearing group) }

/-- The `i`-th increment of `foMPI_Win_post`. -/
def notifyOrigin (l : Layout ι) (s : State ι) (p : ι) (group : Group ι) (i : ℕ) : State ι :=
  match group.ranks[i]? with
  | none => { s with exposure := Function.update s.exposure p (.opened group) }
  | some q =>
    let s := { s with
      exposure := Function.update s.exposure p (.posting group (i + 1))
      posts := update₂ s.posts p q (s.posts p q + 1) }
    if l.viaXpmem p q then s.apply (.matchingExposure q p)
    else { s with inFlight := .matchingExposure q p :: s.inFlight }

def counter (s : State ι) (p : ι) : Counter → BitVec 64
  | .globalCounter => s.globalCounter p
  | .xpmemGlobalCounter => s.xpmemGlobalCounter p

end State

/-- The test of `foMPI_Win_wait`, which casts the second counter to `char`, and that of
`foMPI_Win_test`. -/
def matchesGroup (wait : Bool) (globalCounter xpmemGlobalCounter : BitVec 64) (group : Group ι) : Bool :=
  let size : BitVec 64 := (BitVec.ofNat 32 group.ranks.length).setWidth 64
  if wait then globalCounter + (xpmemGlobalCounter.setWidth 8).signExtend 64 = size
  else globalCounter + xpmemGlobalCounter = size

/-- A read of a counter; the second one decides. -/
def State.poll (s : State ι) (p : ι) (counter : Counter) : Option (State ι) :=
  match s.exposure p with
  | .polling group wait =>
    some { s with exposure := Function.update s.exposure p (.polled group wait counter (s.counter p counter)) }
  | .polled group wait .globalCounter value =>
    some { s with
      exposure := Function.update s.exposure p
        (if matchesGroup wait value (s.xpmemGlobalCounter p) group then .closed
          else if wait then .polling group wait else .opened group) }
  | .polled group wait .xpmemGlobalCounter value =>
    some { s with
      exposure := Function.update s.exposure p
        (if matchesGroup wait (s.globalCounter p) value group then .closed
          else if wait then .polling group wait else .opened group) }
  | _ => none

inductive Action (ι : Type*)
  | start (p : ι) (group : Group ι)
  | complete (p : ι)
  | access (p : ι)
  | post (p : ι) (group : Group ι)
  | expose (p : ι)
  | wait (p : ι)
  | test (p : ι)
  | poll (p : ι) (counter : Counter)
  | deliver (k : ℕ)

omit [DecidableEq ι] in
/-- The process that takes a step; deliveries are the network's. -/
def Action.caller : Action ι → Option ι
  | .start p _ | .complete p | .access p | .post p _ | .expose p | .wait p | .test p | .poll p _ => some p
  | .deliver _ => none

/-- A process opens an epoch when it has closed the last one of the kind; the two kinds are
independent. -/
def step (l : Layout ι) (s : State ι) : Action ι → Option (State ι)
  | .start p group =>
    match s.access p with
    | .closed => some (s.winStart p group)
    | _ => none
  | .complete p =>
    match s.access p with
    | .opened group => some { s with access := Function.update s.access p (.completing group 0) }
    | _ => none
  | .access p =>
    match s.access p with
    | .starting group i => some (s.awaitPost p group i)
    | .completing group i => some (s.notifyTarget l p group i)
    | _ => none
  | .post p group =>
    match s.exposure p with
    | .closed => some (s.winPost p group)
    | _ => none
  | .expose p =>
    match s.exposure p with
    | .clearing group =>
      some { s with
        xpmemGlobalCounter := Function.update s.xpmemGlobalCounter p 0#64
        exposure := Function.update s.exposure p (.posting group 0) }
    | .posting group i => some (s.notifyOrigin l p group i)
    | _ => none
  | .wait p =>
    match s.exposure p with
    | .opened group => some { s with exposure := Function.update s.exposure p (.polling group true) }
    | _ => none
  | .test p =>
    match s.exposure p with
    | .opened group => some { s with exposure := Function.update s.exposure p (.polling group false) }
    | _ => none
  | .poll p counter => s.poll p counter
  | .deliver k =>
    s.inFlight[k]?.map fun m => { s.apply m with inFlight := s.inFlight.eraseIdx k }

end FoMPI.Pscw
