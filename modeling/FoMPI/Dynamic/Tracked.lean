import FoMPI.Dynamic.Sections

/-!
# What the regions of a dynamic window have registered

The calls of `_foMPI_mem_register` and `_foMPI_mem_unregister` that a step makes, in their
order, and, beside the steps of the processes, the list of regions that the calls of every
process prescribe. `foMPI_Win_free` ends the list of a process.
-/
namespace FoMPI.Dynamic
open FoMPI.Foundation

variable {n : ℕ}

/-- The registrations that a step on the own list makes and ends, in its order. -/
def events (D : Desc) (x : Answer) : Pc n → List (RegistryEvent Seg Block)
  | .attachLink _ _ => [.register x.seg (.node x.addr)]
  | .attachDescribe base size => [.register x.seg (.memory base size)]
  | .detachUnlink previous current =>
    if D.winDynamicMemRegions = some current then
      [.unregister (D.heap current).seg, .unregister D.winDynamicMemRegionsSeg]
    else [.unregister (D.heap previous).nextSeg, .unregister (D.heap current).seg]
  | _ => []

/-- The attached regions as the calls have it, base and size: an attach appends one, a detach that
succeeds removes the first with its base. -/
def prescribed (l : List (ℤ × ℤ)) : Pc n → Pc n → List (ℤ × ℤ)
  | .attachLink base size, _ => l ++ [(base, size)]
  | .detachSearch base _ _, .detachUnlink _ _ => l.eraseP fun r => r.1 = base
  | _, _ => l

/-- A window in use with the regions its calls prescribe. -/
structure Tracked (n : ℕ) where
  state : State n
  attached : Fin n → List (ℤ × ℤ)

/-- What a process has registered. -/
def Tracked.registry (S : Tracked n) (q : Fin n) : Registrations := (S.state.desc q).registrations

def Tracked.init (heap : Fin n → Addr → Element) : Tracked n :=
  { state := Dynamic.init heap, attached := fun _ => [] }

def Tracked.step (S : Tracked n) (a : Action n) : Option (Tracked n) :=
  (Dynamic.step S.state a).map fun t =>
    match a with
    | .call _ _ => { S with state := t }
    | .run p _ =>
      { state := t
        attached := Function.update S.attached p (prescribed (S.attached p) (S.state.pc p) (t.pc p)) }

/-- A descriptor holds the address and the size of what it was made for, so that one that is in use
is handed out again for the same memory only. -/
def Named (S : Tracked n) : Action n → Tracked n → Prop
  | .run p x, _ => ∀ k v, .register k v ∈ events (S.state.desc p) x (S.state.pc p) →
    ∀ r ∈ (S.registry p).entries, r.1 = k → r.2 = v
  | .call _ _, _ => True

/-- One round of the loop of `foMPI_Win_free` over the own regions, at the first node. -/
def Desc.freeFirst (D : Desc) (a : Addr) : Desc :=
  let e := D.heap a
  { ((D.memUnregister e.seg).memUnregister D.winDynamicMemRegionsSeg).free a with
    winDynamicMemRegionsSeg := e.nextSeg
    winDynamicMemRegions := e.next }

/-- The loop of `foMPI_Win_free` over the own regions, for at most `fuel` of them. -/
def Desc.winFree : ℕ → Desc → Option Desc
  | 0, D => if D.winDynamicMemRegions = none then some D else none
  | fuel + 1, D =>
    match D.winDynamicMemRegions with
    | none => some D
    | some a => winFree fuel (D.freeFirst a)

/-- The nodes `as`, each under the descriptor that stands before it: the one of the window for the
first, that of the predecessor for the others. -/
def nodeBlocks (heap : Addr → Element) : Seg → List Addr → List (Seg × Block)
  | _, [] => []
  | seg, a :: as => (seg, .node a) :: nodeBlocks heap (heap a).nextSeg as

/-- The regions of the nodes `as`, each under the descriptor in its node. -/
def memoryBlocks (heap : Addr → Element) (as : List Addr) : List (Seg × Block) :=
  as.map fun a => ((heap a).seg, .memory (heap a).base (heap a).size)

/-- One registration for each node and one for each region. -/
def Desc.blocks (D : Desc) (as : List Addr) : List (Seg × Block) :=
  nodeBlocks D.heap D.winDynamicMemRegionsSeg as ++ memoryBlocks D.heap as

/-- Base and size of the regions in the nodes `as`. -/
def Desc.extents (D : Desc) (as : List Addr) : List (ℤ × ℤ) :=
  as.map fun a => ((D.heap a).base, (D.heap a).size)

end FoMPI.Dynamic
