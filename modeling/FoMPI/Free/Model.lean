import FoMPI.Pscw.Safety
import FoMPI.WinLock.Safety

/-!
# Freeing a window

`foMPI_Win_free` of the processes of a window, beside the passive-target and the
general active-target epochs on it. A process calls it when its own epochs have ended.
The call is two `MPI_Barrier`, with the memory that other processes address
unregistered between them; nothing in it waits for the network.
-/
namespace FoMPI.Free
open FoMPI.Foundation

variable {n : ℕ}

/-- How far a process is with a window: `foMPI_Win_free` not called, in its first `MPI_Barrier`, in
the second one with `win_ptr_seg` and `pscw_matching_exposure_seg` unregistered, and through with
it, the descriptor freed. -/
inductive Phase
  | inUse
  | entered
  | unregistered
  | freed
  deriving DecidableEq, Repr

/-- The memory of the process is no longer registered. -/
def Phase.gone : Phase → Bool
  | .inUse | .entered => false
  | .unregistered | .freed => true

/-- A window with its locks and its active-target epochs. `issuers` are the processes that have
issued `lock.undelivered`, position by position. -/
structure State (n : ℕ) where
  lock : WinLock.State n
  issuers : List (Fin n)
  pscw : Pscw.State (Fin n)
  phase : Fin n → Phase

def init (n : ℕ) : State n := ⟨WinLock.init n, [], Pscw.init, fun _ => .inUse⟩

inductive Action (n : ℕ)
  | lock (a : WinLock.Action n)
  | pscw (a : Pscw.Action (Fin n))
  | gsyncWait (p : Fin n)
  | winFree (p : Fin n)
  | unregister (p : Fin n)
  | free (p : Fin n)

/-- The issuers of what is undelivered after a step of the locks. -/
def issue (issuers : List (Fin n)) (issued : Bool) : WinLock.Action n → List (Fin n)
  | .run p => if issued then p :: issuers else issuers
  | .deliver i => issuers.eraseIdx i
  | _ => issuers

/-- No call is under way and no lock is held. -/
def Unlocked (P : WinLock.Proc n) : Prop := P.pc = .idle ∧ (∀ rank, P.held rank = none) ∧ P.heldAll = false

instance (P : WinLock.Proc n) : Decidable (Unlocked P) := inferInstanceAs (Decidable (_ ∧ _ ∧ _))

namespace State

/-- Only a process that has not called `foMPI_Win_free` uses the window. -/
def usedBy (s : State n) (caller : Option (Fin n)) : Bool := caller.all fun p => s.phase p = .inUse

def setPhase (s : State n) (p : Fin n) (phase : Phase) : State n :=
  { s with phase := Function.update s.phase p phase }

end State

/-- A `dmapp_gsync_wait` of a process, in whatever call, returns when the additions it has issued for
the locks are delivered. What it waits for beyond that is left out, which adds interleavings. -/
def step (l : Pscw.Layout (Fin n)) (s : State n) : Action n → Option (State n)
  | .lock a =>
    if s.usedBy a.caller then
      (WinLock.step s.lock a).map fun t =>
        { s with
          lock := t
          issuers := issue s.issuers (s.lock.undelivered.length < t.undelivered.length) a }
    else none
  | .pscw a =>
    if s.usedBy a.caller then (Pscw.step l s.pscw a).map fun t => { s with pscw := t } else none
  | .gsyncWait p => if s.phase p = .inUse ∧ p ∉ s.issuers then some s else none
  | .winFree p =>
    match s.pscw.access p, s.pscw.exposure p with
    | .closed, .closed =>
      if s.phase p = .inUse ∧ Unlocked (s.lock.proc p) then some (s.setPhase p .entered) else none
    | _, _ => none
  | .unregister p =>
    -- all processes are in the first barrier, so it lets the process go
    if s.phase p = .entered ∧ ∀ q, s.phase q ≠ .inUse then some (s.setPhase p .unregistered) else none
  | .free p =>
    if s.phase p = .unregistered ∧ ∀ q, (s.phase q).gone = true then some (s.setPhase p .freed) else none

/-- The process whose memory a lock word is in; `lock_all_mutex` is that of the master. -/
def wordAt (p : Fin n) : WinLock.Word n → Bool
  | .lockMutex rank => rank = p
  | .lockAllMutex => p.val = 0

def incrementAt {ι : Type*} [DecidableEq ι] (p : ι) : Pscw.Increment ι → Bool
  | .matchingExposure origin _ => origin = p
  | .globalCounter target => target = p

/-- An addition is on its way to the memory of a process. -/
def State.Addressed (s : State n) (p : Fin n) : Prop :=
  (∃ m ∈ s.lock.undelivered, wordAt p m.1 = true) ∨ ∃ m ∈ s.pscw.inFlight, incrementAt p m = true

/-- No release hits a freed window. -/
def Safe (s : State n) : Prop := ∀ p, (s.phase p).gone = true → ¬s.Addressed p

/-- A process calls `foMPI_Win_free` when the additions that it has issued to release locks are
delivered. -/
def Orderly (s : State n) : Action n → State n → Prop
  | .winFree p, _ => p ∉ s.issuers
  | _, _ => True

instance (s : State n) : ∀ a t, Decidable (Orderly s a t)
  | .winFree p, _ => inferInstanceAs (Decidable (p ∉ s.issuers))
  | .lock _, _ | .pscw _, _ | .gsyncWait _, _ | .unregister _, _ | .free _, _ =>
    inferInstanceAs (Decidable True)

end FoMPI.Free
