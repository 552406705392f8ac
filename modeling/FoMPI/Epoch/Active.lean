import FoMPI.Foundation.OneSided
import FoMPI.Pscw.Safety

/-!
# Active-target epochs

Post, start, complete and wait together with the transfers of an access epoch, one element
each, and the loads and stores of a process in its own memory between its exposure epochs.
`foMPI_Win_complete` flushes before it tells the first target. The exposure epochs of a
process are counted.
-/
namespace FoMPI.Epoch.Active
open FoMPI.Foundation FoMPI.Pscw

variable {ι V : Type*} [DecidableEq ι]

/-- The counters and the memory of a window; `epoch q` is how often `q` has posted. -/
structure State (ι V : Type*) where
  sync : Pscw.State ι
  epoch : ι → ℕ
  window : OneSided (ι × ℕ) (ι × ℤ) V

inductive Action (ι V : Type*)
  | sync (a : Pscw.Action ι)
  /-- `foMPI_Put` of a value, or `foMPI_Get` -/
  | transfer (p rank : ι) (disp : ℤ) (value : Option V)
  /-- A store of a value, or a load -/
  | own (p : ι) (disp : ℤ) (value : Option V)
  | complete (i : ℕ)

def init (memory : ι × ℤ → V) : State ι V := ⟨Pscw.init, fun _ => 0, .start memory⟩

section Steps
variable (l : Layout ι) (s : State ι V)

/-- The flush in `foMPI_Win_complete` has returned. -/
def Flushed : Pscw.Action ι → Prop
  | .complete p => s.window.Quiet (·.1 = p)
  | _ => True

instance : (a : Pscw.Action ι) → Decidable (Flushed s a)
  | .complete p => inferInstanceAs (Decidable (s.window.Quiet (·.1 = p)))
  | .start .. | .access _ | .post .. | .expose _ | .wait _ | .test _ | .poll .. | .deliver _ => .isTrue trivial

/-- The exposure epochs after a step. -/
def counted : Pscw.Action ι → ι → ℕ
  | .post p _ => Function.update s.epoch p (s.epoch p + 1)
  | _ => s.epoch

def target (p rank : ι) (disp : ℤ) (value : Option V) : Transfer (ι × ℕ) (ι × ℤ) V :=
  ⟨(p, s.epoch rank), (rank, disp), value⟩

/-- Transfers are in an access epoch with the target; loads and stores are not in an exposure epoch. -/
def step : Action ι V → Option (State ι V)
  | .sync a =>
    if Flushed s a then
      (Pscw.step l s.sync a).map fun sync => { s with sync := sync, epoch := counted s a }
    else none
  | .transfer p rank disp value =>
    match s.sync.access p with
    | .opened group =>
      if rank ∈ group.ranks then some { s with window := s.window.issue (target s p rank disp value) } else none
    | _ => none
  | .own p disp value =>
    match s.sync.exposure p with
    | .closed => some { s with window := s.window.atOnce (target s p p disp value) }
    | _ => none
  | .complete i => (s.window.complete i).map fun window => { s with window := window }

/-- What the callers see to in an exposure epoch of the target. -/
def Disciplined : Action ι V → State ι V → Prop
  | .transfer p rank disp value, _ => s.window.Disciplined (target s p rank disp value)
  | _, _ => True

instance [DecidableEq V] (a : Action ι V) (t : State ι V) : Decidable (Disciplined s a t) :=
  match a with
  | .transfer p rank disp value => inferInstanceAs (Decidable (s.window.Disciplined (target s p rank disp value)))
  | .sync _ | .own .. | .complete _ => .isTrue trivial

end Steps

section Access
variable {l : Layout ι} {s t : Pscw.State ι} {p q : ι} {g : Pscw.Group ι} {i : ℕ}

@[simp] theorem apply_access (m : Increment ι) : (s.apply m).access = s.access := by
  cases m <;> rfl

theorem awaitPost_access (other : p ≠ q) : (s.awaitPost q g i).access p = s.access p := by
  unfold State.awaitPost
  split
  · exact Function.update_of_ne other ..
  · split
    · exact Function.update_of_ne other ..
    · rfl

theorem notifyTarget_access (other : p ≠ q) : (s.notifyTarget l q g i).access p = s.access p := by
  unfold State.notifyTarget
  split
  · exact Function.update_of_ne other ..
  · dsimp only
    split <;> exact Function.update_of_ne other ..

@[simp] theorem notifyOrigin_access : (s.notifyOrigin l q g i).access = s.access := by
  unfold State.notifyOrigin
  split
  · rfl
  · dsimp only
    split
    · exact apply_access _
    · rfl

theorem poll_access {c : Counter} (move : s.poll q c = some t) : t.access = s.access := by
  cases exposure : s.exposure q with
  | closed | clearing g | posting g i | opened g =>
    rw [State.poll, exposure] at move
    contradiction
  | polling g wait =>
    rw [State.poll, exposure] at move
    cases move
    rfl
  | polled g wait c' v =>
    rw [s.poll_polled c exposure] at move
    cases move
    rfl

/-- An access epoch that is open stays open up to the complete of its process. -/
theorem opened_of_step {a : Pscw.Action ι} (move : Pscw.step l s a = some t) (opened : s.access p = .opened g)
    (going : a ≠ .complete p) : t.access p = .opened g := by
  cases a with
  | start q g' =>
    simp only [Pscw.step] at move
    split at move
    · rename_i closed
      cases move
      refine (Function.update_of_ne (fun same => ?_) _ _).trans opened
      rw [← same, opened] at closed
      contradiction
    · contradiction
  | complete q =>
    simp only [Pscw.step] at move
    split at move
    · cases move
      exact (Function.update_of_ne (fun same : p = q => going (congrArg Pscw.Action.complete same.symm)) _ _).trans opened
    · contradiction
  | access q =>
    simp only [Pscw.step] at move
    split at move
    · rename_i starting
      cases move
      refine (awaitPost_access fun same => ?_).trans opened
      rw [← same, opened] at starting
      contradiction
    · rename_i completing
      cases move
      refine (notifyTarget_access fun same => ?_).trans opened
      rw [← same, opened] at completing
      contradiction
    · contradiction
  | post q g' | wait q | test q =>
    simp only [Pscw.step] at move
    split at move
    · cases move
      exact opened
    · contradiction
  | expose q =>
    simp only [Pscw.step] at move
    split at move
    · cases move
      exact opened
    · cases move
      rw [notifyOrigin_access]
      exact opened
    · contradiction
  | poll q c => rw [poll_access move, opened]
  | deliver k =>
    obtain ⟨m, -, rfl⟩ := Option.map_eq_some_iff.mp move
    exact (congrFun (apply_access m) p).trans opened

end Access

section Runs
variable {l : Layout ι} {memory : ι × ℤ → V} {s t : State ι V}

/-- A transfer in flight is in an open access epoch, and in the exposure epoch that its target is in. -/
structure Inv (memory : ι × ℤ → V) (s : State ι V) : Prop where
  sync : Pscw.Inv s.sync
  inside : ∀ m ∈ s.window.inFlight, ∃ g, s.sync.access m.2.origin.1 = .opened g ∧ m.2.location.1 ∈ g.ranks
  current : ∀ m ∈ s.window.inFlight, m.2.origin.2 = s.epoch m.2.location.1
  coherent : s.window.Coherent memory

theorem Inv.exposed (inv : Inv memory s) {m : ℕ × Transfer (ι × ℕ) (ι × ℤ) V} (mem : m ∈ s.window.inFlight) :
    m.2.origin.1 ∈ (s.sync.exposure m.2.location.1).posted := by
  obtain ⟨g, opened, member⟩ := inv.inside m mem
  refine (inv.sync.posted_of_passed ?_).1
  rw [opened]
  exact member

/-- Nothing is in flight to a process that is not in an exposure epoch. -/
theorem Inv.unexposed (inv : Inv memory s) {q : ι} (closed : s.sync.exposure q = .closed)
    {m : ℕ × Transfer (ι × ℕ) (ι × ℤ) V} (mem : m ∈ s.window.inFlight) : m.2.location.1 ≠ q := by
  rintro rfl
  have posted := inv.exposed mem
  rw [closed] at posted
  exact List.not_mem_nil posted

theorem Inv.counted (inv : Inv memory s) {a : Pscw.Action ι} {sync : Pscw.State ι}
    (move : Pscw.step l s.sync a = some sync) {m : ℕ × Transfer (ι × ℕ) (ι × ℤ) V} (mem : m ∈ s.window.inFlight) :
    counted s a m.2.location.1 = s.epoch m.2.location.1 := by
  cases a with
  | post q g =>
    simp only [Pscw.step] at move
    split at move
    · rename_i closed
      exact Function.update_of_ne (inv.unexposed closed mem) ..
    · contradiction
  | _ => rfl

theorem Inv.step {a : Action ι V} (inv : Inv memory s) (move : step l s a = some t) (disciplined : Disciplined s a t) :
    Inv memory t := by
  cases a with
  | sync a =>
    simp only [Active.step, Option.ite_none_right_eq_some, Option.map_eq_some_iff] at move
    obtain ⟨flushed, sync, move, rfl⟩ := move
    refine ⟨inv.sync.step move, fun m mem => ?_, fun m mem => ?_, inv.coherent⟩
    · obtain ⟨g, opened, member⟩ := inv.inside m mem
      refine ⟨g, opened_of_step move opened fun completes => ?_, member⟩
      subst completes
      exact flushed m mem rfl
    · exact (inv.current m mem).trans (inv.counted move mem).symm
  | transfer p rank disp value =>
    simp only [Active.step] at move
    split at move
    · rename_i g opened
      simp only [Option.ite_none_right_eq_some, Option.some.injEq] at move
      obtain ⟨member, rfl⟩ := move
      refine ⟨inv.sync, fun m mem => ?_, fun m mem => ?_,
        inv.coherent.issue (disciplined.clear inv.coherent fun m mem same _ => ?_)⟩
      · obtain mem | new := OneSided.mem_issue mem
        · exact inv.inside m mem
        · rw [new]
          exact ⟨g, opened, member⟩
      · obtain mem | new := OneSided.mem_issue mem
        · exact inv.current m mem
        · rw [new]
          rfl
      · rw [inv.current m mem, same]
        rfl
    · contradiction
  | own p disp value =>
    simp only [Active.step] at move
    split at move
    · rename_i closed
      cases move
      refine ⟨inv.sync, fun m mem => ?_, fun m mem => ?_, inv.coherent.atOnce fun m mem same => ?_⟩
      · exact inv.inside m (by simpa using mem)
      · exact inv.current m (by simpa using mem)
      · exact absurd (congrArg Prod.fst same) (inv.unexposed closed mem)
    · contradiction
  | complete i =>
    obtain ⟨window, completed, rfl⟩ := Option.map_eq_some_iff.mp move
    exact ⟨inv.sync, fun m mem => inv.inside m (OneSided.mem_complete completed mem),
      fun m mem => inv.current m (OneSided.mem_complete completed mem), inv.coherent.complete completed⟩

/-- The origin puts 5 into the memory of the target, which loads it when its wait has returned. -/
def exchange : List (Action Side ℕ) :=
  [.sync (.start .origin (only .target)), .sync (.post .target (only .origin)), .sync (.expose .target),
    .sync (.expose .target), .sync (.expose .target), .sync (.deliver 0), .sync (.access .origin),
    .sync (.access .origin), .transfer .origin .target 0 (some 5), .sync (.wait .target), .complete 0,
    .sync (.complete .origin), .sync (.access .origin), .sync (.access .origin), .sync (.deliver 0),
    .sync (.poll .target .xpmemGlobalCounter), .sync (.poll .target .globalCounter), .own .target 0 none]

end Runs

end FoMPI.Epoch.Active
