import Mathlib.Data.Fintype.Basic
import Mathlib.Data.Fintype.Pi
import FoMPI.Foundation.Transition
import FoMPI.Foundation.Ledger

/-!
# Passive-target locks

`foMPI_Win_lock`, `foMPI_Win_unlock`, `foMPI_Win_lock_all` and
`foMPI_Win_unlock_all` as programs of single network operations on the lock words
of a window. A process alternates between the operation its program counter asks
for and the local code up to the next operation. Calls on `MPI_PROC_NULL` return
at once and change nothing, so ranks are the `n` ranks of the window. The flush of
an unlock only waits; leaving it out adds interleavings and removes none.
-/
namespace FoMPI.WinLock
open FoMPI.Foundation

variable {n : ℕ}

/-- `foMPI_LOCK_SHARED` and `foMPI_LOCK_EXCLUSIVE`. -/
inductive LockType
  | shared
  | exclusive
  deriving DecidableEq, Repr

/-- The lock words of a window. `lockMutex r` is in the descriptor of rank `r`: the lowest bit
is the exclusive lock, the rest counts shared locks. `lockAllMutex` is significant on the master
only: the low half counts processes with exclusive locks, the high half counts lock_all locks. -/
inductive Word (n : ℕ)
  | lockMutex (rank : Fin n)
  | lockAllMutex
  deriving DecidableEq, Repr

/-- The network operations of the lock routines; operands are `int64_t`. -/
inductive RemoteOp (n : ℕ)
  | afadd (word : Word n) (operand : ℤ)
  | aadd (word : Word n) (operand : ℤ)
  | acswap (word : Word n) (comparand swap : ℤ)
  | get (word : Word n)
  | aaddNbi (word : Word n) (operand : ℤ)
  deriving DecidableEq, Repr

/-- The word an operation addresses. -/
def RemoteOp.word : RemoteOp n → Word n
  | .afadd w _ | .aadd w _ | .acswap w _ _ | .get w | .aaddNbi w _ => w

/-- The next network operation of a process, by routine and target rank. -/
inductive Pc (n : ℕ)
  | idle
  | exclusiveJoin (rank : Fin n)
  | exclusiveSwap (rank : Fin n)
  | exclusiveBackOff (rank : Fin n)
  | exclusiveSwapOnly (rank : Fin n)
  | sharedAnnounce (rank : Fin n)
  | sharedSpin (rank : Fin n)
  | unlockExclusive (rank : Fin n)
  | unlockMaster (rank : Fin n)
  | unlockShared (rank : Fin n)
  | lockAllAnnounce
  | lockAllSpin
  | unlockAll
  deriving DecidableEq, Repr

/-- One process: its program counter, the bookkeeping of exclusive locks in its window descriptor,
and what its caller holds. A lock is held from the moment the acquiring operation has returned until
the operation that releases it has been issued; the library keeps no such record itself. -/
structure Proc (n : ℕ) where
  pc : Pc n
  localExclusiveCount : BitVec 32
  exclLocks : List (Fin n)
  held : Fin n → Option LockType
  heldAll : Bool

/-- A window in use, with the non-blocking additions that were issued and not yet delivered. -/
structure State (n : ℕ) where
  mem : Word n → BitVec 64
  proc : Fin n → Proc n
  undelivered : List (Word n × ℤ)

/-- The state after window creation. -/
def init (n : ℕ) : State n :=
  ⟨fun _ => 0#64, fun _ => ⟨.idle, 0#32, [], fun _ => none, false⟩, []⟩

/-- `foMPI_search_excl_lock`. -/
def searchExclLock (rank : Fin n) : List (Fin n) → LockType
  | [] => .shared
  | r :: rest => if r = rank then .exclusive else searchExclLock rank rest

/-- `foMPI_delete_excl_lock`; running off the end of the list is a null dereference. -/
def deleteExclLock (rank : Fin n) : List (Fin n) → Option (List (Fin n))
  | [] => none
  | r :: rest => if r = rank then some rest else (deleteExclLock rank rest).map (r :: ·)

/-- `~(uint64_t) 0 << 32`: the lock_all half of the master word. -/
def lockAllMask : BitVec 64 := BitVec.allOnes 64 <<< 32

/-- `~(~(uint64_t) 0 << 32)`: the exclusive half of the master word. -/
def exclusiveMask : BitVec 64 := ~~~(BitVec.allOnes 64 <<< 32)

namespace Proc

/-- The operation the process issues next, if its next step has one. -/
def remoteOp (P : Proc n) : Option (RemoteOp n) :=
  match P.pc with
  | .idle => none
  | .exclusiveJoin _ => some (.afadd .lockAllMutex 1)
  | .exclusiveSwap rank => some (.acswap (.lockMutex rank) 0 1)
  | .exclusiveBackOff _ => some (.aadd .lockAllMutex (-1))
  | .exclusiveSwapOnly rank => some (.acswap (.lockMutex rank) 0 1)
  | .sharedAnnounce rank => some (.afadd (.lockMutex rank) 2)
  | .sharedSpin rank => some (.get (.lockMutex rank))
  | .unlockExclusive rank => some (.aadd (.lockMutex rank) (-1))
  | .unlockMaster _ =>
    if P.localExclusiveCount = 0#32 then some (.aaddNbi .lockAllMutex (-1)) else none
  | .unlockShared rank => some (.aaddNbi (.lockMutex rank) (-2))
  | .lockAllAnnounce => some (.afadd .lockAllMutex 4294967296)
  | .lockAllSpin => some (.get .lockAllMutex)
  | .unlockAll => some (.aaddNbi .lockAllMutex (-4294967296))

/-- Both exclusive paths end here: count the lock and insert it at the head of the list. -/
def acquireExclusive (P : Proc n) (rank : Fin n) : Proc n :=
  { P with
    pc := .idle
    localExclusiveCount := P.localExclusiveCount + 1#32
    exclLocks := rank :: P.exclLocks
    held := Function.update P.held rank (some .exclusive) }

def acquireShared (P : Proc n) (rank : Fin n) (result : BitVec 64) : Proc n :=
  if result &&& 1#64 = 0#64 then
    { P with pc := .idle, held := Function.update P.held rank (some .shared) }
  else { P with pc := .sharedSpin rank }

def acquireAll (P : Proc n) (result : BitVec 64) : Proc n :=
  if result &&& exclusiveMask = 0#64 then { P with pc := .idle, heldAll := true }
  else { P with pc := .lockAllSpin }

/-- The local code that follows the operation, given the value it fetched. -/
def resume (P : Proc n) (result : BitVec 64) : Option (Proc n) :=
  match P.pc with
  | .idle => none
  | .exclusiveJoin rank =>
    some { P with pc := if result &&& lockAllMask = 0#64 then .exclusiveSwap rank else .exclusiveBackOff rank }
  | .exclusiveSwap rank =>
    some (if result = 0#64 then P.acquireExclusive rank else { P with pc := .exclusiveBackOff rank })
  | .exclusiveBackOff rank => some { P with pc := .exclusiveJoin rank }
  | .exclusiveSwapOnly rank => some (if result = 0#64 then P.acquireExclusive rank else P)
  | .sharedAnnounce rank | .sharedSpin rank => some (P.acquireShared rank result)
  | .unlockExclusive rank =>
    some { P with
      pc := .unlockMaster rank
      localExclusiveCount := P.localExclusiveCount - 1#32
      held := Function.update P.held rank none }
  | .unlockMaster rank =>
    (deleteExclLock rank P.exclLocks).map fun rest => { P with pc := .idle, exclLocks := rest }
  | .unlockShared rank => some { P with pc := .idle, held := Function.update P.held rank none }
  | .lockAllAnnounce | .lockAllSpin => some (P.acquireAll result)
  | .unlockAll => some { P with pc := .idle, heldAll := false }

/-- The entry of `foMPI_Win_lock`; only the first exclusive lock goes through the master. -/
def winLock (P : Proc n) (lockType : LockType) (rank : Fin n) : Proc n :=
  match lockType with
  | .exclusive =>
    { P with pc := if P.localExclusiveCount = 0#32 then .exclusiveJoin rank else .exclusiveSwapOnly rank }
  | .shared => { P with pc := .sharedAnnounce rank }

/-- The entry of `foMPI_Win_unlock`. -/
def winUnlock (P : Proc n) (rank : Fin n) : Proc n :=
  match searchExclLock rank P.exclLocks with
  | .exclusive => { P with pc := .unlockExclusive rank }
  | .shared => { P with pc := .unlockShared rank }

def winLockAll (P : Proc n) : Proc n := { P with pc := .lockAllAnnounce }

def winUnlockAll (P : Proc n) : Proc n := { P with pc := .unlockAll }

end Proc

namespace State

/-- Carry out a network operation; the value fetched is that before the operation. -/
def execute (s : State n) : RemoteOp n → BitVec 64 × State n
  | .afadd w d => (s.mem w, { s with mem := Function.update s.mem w (s.mem w + BitVec.ofInt 64 d) })
  | .aadd w d => (s.mem w, { s with mem := Function.update s.mem w (s.mem w + BitVec.ofInt 64 d) })
  | .acswap w c v =>
    (s.mem w, if s.mem w = BitVec.ofInt 64 c then
      { s with mem := Function.update s.mem w (BitVec.ofInt 64 v) } else s)
  | .get w => (s.mem w, s)
  | .aaddNbi w d => (s.mem w, { s with undelivered := (w, d) :: s.undelivered })

def setProc (s : State n) (p : Fin n) (P : Proc n) : State n :=
  { s with proc := Function.update s.proc p P }

/-- One operation of process `p` together with the local code after it. -/
def run (s : State n) (p : Fin n) : Option (State n) :=
  let r := ((s.proc p).remoteOp.map s.execute).getD (0#64, s)
  ((s.proc p).resume r.1).map (r.2.setProc p)

/-- The `i`-th undelivered addition takes effect. -/
def deliver (s : State n) (i : ℕ) : Option (State n) :=
  s.undelivered[i]?.map fun m =>
    { s with
      mem := Function.update s.mem m.1 (s.mem m.1 + BitVec.ofInt 64 m.2)
      undelivered := s.undelivered.eraseIdx i }

end State

/-- The scheduling choices: a process enters a routine, a process runs to its next operation, an
addition is delivered. -/
inductive Action (n : ℕ)
  | winLock (p : Fin n) (lockType : LockType) (rank : Fin n)
  | winUnlock (p : Fin n) (rank : Fin n)
  | winLockAll (p : Fin n)
  | winUnlockAll (p : Fin n)
  | run (p : Fin n)
  | deliver (i : ℕ)
  deriving DecidableEq, Repr

/-- The process that takes a step; deliveries are the network's. -/
def Action.caller : Action n → Option (Fin n)
  | .winLock p _ _ | .winUnlock p _ | .winLockAll p | .winUnlockAll p | .run p => some p
  | .deliver _ => none

/-- Calls follow the rules of MPI: at most one lock for each target, no lock_all beside it, and only
what is held is released. -/
def step (s : State n) : Action n → Option (State n)
  | .winLock p lockType rank =>
    let P := s.proc p
    if P.pc = .idle ∧ P.held rank = none ∧ P.heldAll = false then
      some (s.setProc p (P.winLock lockType rank))
    else none
  | .winUnlock p rank =>
    let P := s.proc p
    if P.pc = .idle ∧ P.held rank ≠ none then some (s.setProc p (P.winUnlock rank)) else none
  | .winLockAll p =>
    let P := s.proc p
    if P.pc = .idle ∧ (∀ rank, P.held rank = none) ∧ P.heldAll = false then
      some (s.setProc p P.winLockAll)
    else none
  | .winUnlockAll p =>
    let P := s.proc p
    if P.pc = .idle ∧ P.heldAll = true then some (s.setProc p P.winUnlockAll) else none
  | .run p => s.run p
  | .deliver i => s.deliver i

/-- Processes and undelivered additions together stay below 2^31. -/
def Bounded (_ : State n) (_ : Action n) (t : State n) : Prop := n + t.undelivered.length < 2 ^ 31

end FoMPI.WinLock
