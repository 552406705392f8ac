import FoMPI.Foundation.OneSided
import FoMPI.Foundation.Transition
import Mathlib.Data.Int.Notation
import Mathlib.Order.Nat

/-!
# Fence epochs

`foMPI_Win_fence` is a flush and an `MPI_Barrier`. Between two fences a process issues
transfers and works on its own memory; its epoch is told by the number of barriers that it
has entered. The barrier is that of the MPI library: what is used of it is that nobody leaves
it before everybody has entered it.
-/
namespace FoMPI.Epoch.Fence
open FoMPI.Foundation

variable {ι V : Type*}

/-- `MPI_Barrier`: who may leave, by how many barriers everybody has entered. -/
structure Barrier (ι : Type*) where
  opens : (ι → ℕ) → ι → Bool
  waits : ∀ entered p, opens entered p = true → ∀ q, entered p ≤ entered q

inductive Pc
  | between
  /-- in `foMPI_Win_flush_all` -/
  | flushing
  | barrier
  deriving DecidableEq

structure State (ι V : Type*) where
  pc : ι → Pc
  entered : ι → ℕ
  window : OneSided (ι × ℕ) (ι × ℤ) V

inductive Action (ι V : Type*)
  | fence (p : ι)
  | enter (p : ι)
  | leave (p : ι)
  /-- `foMPI_Put` of a value, or `foMPI_Get` -/
  | transfer (p rank : ι) (disp : ℤ) (value : Option V)
  /-- A store of a value, or a load -/
  | own (p : ι) (disp : ℤ) (value : Option V)
  | complete (i : ℕ)

def init (memory : ι × ℤ → V) : State ι V := ⟨fun _ => .between, fun _ => 0, .start memory⟩

variable [DecidableEq ι]

section Steps
variable (B : Barrier ι) (s : State ι V)

def target (p rank : ι) (disp : ℤ) (value : Option V) : Transfer (ι × ℕ) (ι × ℤ) V :=
  ⟨(p, s.entered p), (rank, disp), value⟩

def step : Action ι V → Option (State ι V)
  | .fence p => if s.pc p = .between then some { s with pc := Function.update s.pc p .flushing } else none
  | .enter p =>
    if s.pc p = .flushing ∧ s.window.Quiet (·.1 = p) then
      some { s with
        pc := Function.update s.pc p .barrier
        entered := Function.update s.entered p (s.entered p + 1) }
    else none
  | .leave p =>
    if s.pc p = .barrier ∧ B.opens s.entered p then some { s with pc := Function.update s.pc p .between } else none
  | .transfer p rank disp value =>
    if s.pc p = .between then some { s with window := s.window.issue (target s p rank disp value) } else none
  | .own p disp value =>
    if s.pc p = .between then some { s with window := s.window.atOnce (target s p p disp value) } else none
  | .complete i => (s.window.complete i).map fun window => { s with window := window }

/-- What the callers see to between two fences. -/
def Disciplined : Action ι V → State ι V → Prop
  | .transfer p rank disp value, _ => s.window.Disciplined (target s p rank disp value)
  | .own p disp value, _ => s.window.Disciplined (target s p p disp value)
  | _, _ => True

instance [DecidableEq V] (a : Action ι V) (t : State ι V) : Decidable (Disciplined s a t) :=
  match a with
  | .transfer p rank disp value => inferInstanceAs (Decidable (s.window.Disciplined (target s p rank disp value)))
  | .own p disp value => inferInstanceAs (Decidable (s.window.Disciplined (target s p p disp value)))
  | .fence _ | .enter _ | .leave _ | .complete _ => .isTrue trivial

end Steps

section Runs
variable {B : Barrier ι} {memory : ι × ℤ → V} {s t : State ι V} {p q : ι}

/-- Whoever is not in a barrier is behind nobody; transfers in flight are of the epoch of their process. -/
structure Inv (memory : ι × ℤ → V) (s : State ι V) : Prop where
  first : ∀ p, s.pc p ≠ .barrier → ∀ q, s.entered p ≤ s.entered q
  outside : ∀ m ∈ s.window.inFlight, s.pc m.2.origin.1 ≠ .barrier ∧ m.2.origin.2 = s.entered m.2.origin.1
  coherent : s.window.Coherent memory

/-- Whoever is not in a barrier is in the epoch of all that is in flight. -/
theorem Inv.current (inv : Inv memory s) (outside : s.pc p ≠ .barrier) {m : ℕ × Transfer (ι × ℕ) (ι × ℤ) V}
    (mem : m ∈ s.window.inFlight) : m.2.origin.2 = s.entered p := by
  obtain ⟨active, epoch⟩ := inv.outside m mem
  rw [epoch]
  exact Nat.le_antisymm (inv.first _ active p) (inv.first p outside _)

/-- A process moves on without a transfer; its epoch changes only where it has nothing in flight. -/
theorem Inv.move (inv : Inv memory s) {pc : Pc} {k : ℕ} (more : s.entered p ≤ k)
    (first : pc ≠ .barrier → k = s.entered p ∧ ∀ q, s.entered p ≤ s.entered q)
    (quiet : pc ≠ .barrier ∧ k = s.entered p ∨ s.window.Quiet (·.1 = p)) :
    Inv memory { s with pc := Function.update s.pc p pc, entered := Function.update s.entered p k } := by
  refine ⟨fun q outside r => ?_, fun m mem => ?_, inv.coherent⟩
  · have grows : s.entered r ≤ Function.update s.entered p k r := by
      obtain rfl | other := eq_or_ne r p
      · rwa [Function.update_self]
      · rw [Function.update_of_ne other]
    refine le_trans ?_ grows
    obtain rfl | other := eq_or_ne q p
    · obtain ⟨same, first⟩ := first (by simpa using outside)
      simpa [same] using first r
    · simpa [other] using inv.first q (by simpa [other] using outside) r
  · obtain ⟨active, epoch⟩ := inv.outside m mem
    obtain same | other := eq_or_ne m.2.origin.1 p
    · obtain ⟨stays, rfl⟩ | quiet := quiet
      · exact ⟨by simpa [same] using stays, by simpa [same] using epoch⟩
      · exact absurd same (quiet m mem)
    · exact ⟨by simpa [other] using active, by simpa [other] using epoch⟩

theorem Inv.step {a : Action ι V} (inv : Inv memory s) (move : step B s a = some t) (disciplined : Disciplined s a t) :
    Inv memory t := by
  have stay {p : ι} {pc : Pc} (active : s.pc p ≠ .barrier ∨ B.opens s.entered p) (next : pc ≠ .barrier) :
      Inv memory { s with pc := Function.update s.pc p pc } := by
    have moved := inv.move (le_refl (s.entered p))
      (fun _ : pc ≠ .barrier => ⟨rfl, active.elim (inv.first p) (B.waits s.entered p)⟩) (.inl ⟨next, rfl⟩)
    rwa [Function.update_eq_self] at moved
  cases a with
  | fence p =>
    simp only [Fence.step, Option.ite_none_right_eq_some, Option.some.injEq] at move
    obtain ⟨between, rfl⟩ := move
    exact stay (.inl (by simp [between])) (by simp)
  | enter p =>
    simp only [Fence.step, Option.ite_none_right_eq_some, Option.some.injEq] at move
    obtain ⟨⟨-, quiet⟩, rfl⟩ := move
    exact inv.move (Nat.le_succ _) (fun h => absurd rfl h) (.inr quiet)
  | leave p =>
    simp only [Fence.step, Option.ite_none_right_eq_some, Option.some.injEq] at move
    obtain ⟨⟨-, opens⟩, rfl⟩ := move
    exact stay (.inr opens) (by simp)
  | transfer p rank disp value =>
    simp only [Fence.step, Option.ite_none_right_eq_some, Option.some.injEq] at move
    obtain ⟨between, rfl⟩ := move
    have outside : s.pc p ≠ .barrier := by simp [between]
    refine ⟨inv.first, fun m mem => ?_,
      inv.coherent.issue (disciplined.clear inv.coherent fun m mem _ _ => inv.current outside mem)⟩
    obtain mem | new := OneSided.mem_issue mem
    · exact inv.outside m mem
    · rw [new]
      exact ⟨outside, rfl⟩
  | own p disp value =>
    simp only [Fence.step, Option.ite_none_right_eq_some, Option.some.injEq] at move
    obtain ⟨between, rfl⟩ := move
    have outside : s.pc p ≠ .barrier := by simp [between]
    exact ⟨inv.first, fun m mem => inv.outside m (by simpa using mem),
      inv.coherent.atOnce (disciplined.clear inv.coherent fun m mem _ _ => inv.current outside mem)⟩
  | complete i =>
    obtain ⟨window, completed, rfl⟩ := Option.map_eq_some_iff.mp move
    exact ⟨inv.first, fun m mem => inv.outside m (OneSided.mem_complete completed mem),
      inv.coherent.complete completed⟩

/-- The barrier of two processes. -/
def both : Barrier Bool where
  opens entered p := decide (entered p ≤ entered true ∧ entered p ≤ entered false)
  waits entered p opens q := by
    obtain ⟨first, second⟩ := of_decide_eq_true opens
    cases q
    · exact second
    · exact first

/-- A put, a fence, and a load of what was put. -/
def relay : List (Action Bool ℕ) :=
  [.transfer true false 0 (some 5), .fence false, .enter false, .fence true, .complete 0, .enter true, .leave false,
    .own false 0 none]

end Runs

end FoMPI.Epoch.Fence
