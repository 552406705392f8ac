import FoMPI.Foundation.Transition
import FoMPI.Req.Waitany

/-!
# Sequences of calls on requests

A process creates, starts, tests and waits for requests in any order while its
network moves on. The state remembers which handles still owe their user a report,
and counts for each persistent request the starts that found it inactive and the
completions reported for it.
-/
namespace FoMPI.Req
open FoMPI.Foundation

variable {ω κ : Type*} [DecidableEq ω] [DecidableEq κ]

structure State (ω κ : Type*) where
  mem : Memory ω
  world : World ω κ
  issued : ℕ
  /-- The operation whose completion the handle at an address has yet to report. -/
  owed : ℕ → Option (Rma ω)
  starts : ℕ → ℕ
  completions : ℕ → ℕ

inductive Action (ω : Type*)
  /-- A call that returns a request of an operation, of which `dmapp` and `ugni` parts are under way:
  `foMPI_Rput`, `foMPI_Rget`, `foMPI_Raccumulate`, `foMPI_Rget_accumulate`, `foMPI_Rput_notify` and
  `foMPI_Rget_notify`. -/
  | rma (k : ℕ) (win : ω) (elements source : ℤ) (dmapp ugni : ℕ)
  | notifyInit (k : ℕ) (win : ω) (args : Notif.Args)
  | requestFree (k : ℕ)
  | start (k : ℕ)
  | test (k : ℕ)
  | wait (k : ℕ)
  | testany (base count rand : ℕ)
  | waitany (base count rand : ℕ) (rands : List ℕ)
  | flushAll (win : ω)
  | network (e : Event ω)
  /-- What the network will do during the calls to come. -/
  | schedule (script : List (List (Event ω)))

/-- `nbi_counter` is a `uint32_t` that is incremented for each implicit operation. -/
def World.issue (W : World ω κ) (win : ω) (id dmapp ugni : ℕ) : World ω κ :=
  { W with
    nbiCounter := Function.update W.nbiCounter win (W.nbiCounter win + BitVec.ofNat 32 dmapp)
    counterUgniNbi := Function.update W.counterUgniNbi (W.fompiComm win)
      (W.counterUgniNbi (W.fompiComm win) + ugni)
    dmapp := W.dmapp ++ List.replicate dmapp (win, id)
    ugni := W.ugni ++ List.replicate ugni (W.fompiComm win, id) }

/-- The user learns from the handle at `k` that its operation has completed. -/
def State.report (s : State ω κ) (k : ℕ) : State ω κ :=
  { s with
    owed := Function.update s.owed k none
    completions :=
      if idle (s.mem k) then s.completions else Function.update s.completions k (s.completions k + 1) }

def State.reportIndex (s : State ω κ) (base : ℕ) : Option ℕ → State ω κ
  | none => s
  | some i => s.report (base + i)

def State.scanned (s : State ω κ) (base : ℕ) : Except Fault (Scan ω κ) → Option (State ω κ)
  | .error _ => none
  | .ok r => some { s.reportIndex base r.index with mem := r.mem, world := r.world }

def step (s : State ω κ) : Action ω → Option (State ω κ)
  | .rma k win elements source dmapp ugni =>
    let r : Rma ω := ⟨s.issued, win, elements, source⟩
    some { s with
      mem := Function.update s.mem k (some (.rma r))
      world := s.world.issue win s.issued dmapp ugni
      issued := s.issued + 1
      owed := Function.update s.owed k (some r) }
  | .notifyInit k win args =>
    some { s with
      mem := Function.update s.mem k (some (.notification ⟨win, args, 0, false⟩))
      owed := Function.update s.owed k none
      starts := Function.update s.starts k 0
      completions := Function.update s.completions k 0 }
  | .requestFree k =>
    some { s with
      mem := Function.update s.mem k (requestFree (s.mem k))
      owed := Function.update s.owed k none }
  | .start k =>
    some { s with
      mem := Function.update s.mem k (Req.start (s.mem k)).1
      starts := if idle (s.mem k) then Function.update s.starts k (s.starts k + 1) else s.starts }
  | .test k =>
    let o := Req.test s.world (s.mem k)
    some { (if o.flag then s.report k else s) with
      mem := Function.update s.mem k o.handle
      world := o.world }
  | .wait k =>
    match Req.wait s.world (s.mem k) with
    | .error _ => none
    | .ok o => some { s.report k with mem := Function.update s.mem k o.handle, world := o.world }
  | .testany base count rand => s.scanned base (Req.testany base count rand s.mem s.world)
  | .waitany base count rand rands => s.scanned base (Req.waitany base count (rand :: rands) s.mem s.world)
  | .flushAll win => some { s with world := s.world.flushAll win }
  | .network e => some { s with world := s.world.event e }
  | .schedule script => some { s with world := { s.world with script := script } }

omit [DecidableEq ω] [DecidableEq κ] in
theorem State.scanned_eq_some {s t : State ω κ} {base : ℕ} {result : Except Fault (Scan ω κ)}
    (move : s.scanned base result = some t) : ∃ r, result = .ok r ∧
      t = { s.reportIndex base r.index with mem := r.mem, world := r.world } := by
  cases result with
  | error e => contradiction
  | ok r => exact ⟨r, rfl, (Option.some.inj move).symm⟩

/-- Nothing is under way, and there are no requests. -/
def init (W : World ω κ) : State ω κ where
  mem _ := none
  world := { W with dmapp := [], ugni := [] }
  issued := 0
  owed _ := none
  starts _ := 0
  completions _ := 0

end FoMPI.Req
