import FoMPI.NotifLock.Exclusion

/-!
# First come, first served

The turn of a process is how many tickets had been drawn when it drew its own; no word of the
lock keeps it. The process with the lowest turn is never kept waiting, and only that one is let
in.
-/
namespace FoMPI.NotifLock
open FoMPI.Foundation

variable {π : Type*}

structure Timed (π : Type*) where
  lock : State π
  drawn : ℕ
  turn : π → ℕ

/-- The process that takes a step. -/
def Action.process : Action π → π
  | .fetchAndAdd p | .test p | .clear p | .set p => p

namespace Timed
variable {m : ℕ} {memory : ℤ → BitVec 32}

def init (m : ℕ) (memory : ℤ → BitVec 32) : Timed π := ⟨NotifLock.init m memory, 0, fun _ => 0⟩

def step [DecidableEq π] (m : ℕ) (s : Timed π) (a : Action π) : Option (Timed π) :=
  (NotifLock.step m s.lock a).map fun lock =>
    match a with
    | .fetchAndAdd p => ⟨lock, s.drawn + 1, Function.update s.turn p s.drawn⟩
    | _ => ⟨lock, s.drawn, s.turn⟩

def Orderly [DecidableEq π] (m : ℕ) (s : Timed π) (a : Action π) (t : Timed π) : Prop :=
  NotifLock.Orderly m s.lock a t.lock

variable {s t : Timed π}

/-- The turns of those who wait are the tickets that are out. -/
def Lined (m : ℕ) (s : Timed π) : Prop := ∃ first, Served m s.lock s.drawn first s.turn

theorem Lined.init : Lined m (init m memory : Timed π) := ⟨0, Served.of_init m memory⟩

theorem Lined.step [DecidableEq π] (pos : 0 < m) (h : Lined m s) {a : Action π} (move : s.step m a = some t)
    (orderly : Orderly m s a t) : Lined m t := by
  obtain ⟨first, served⟩ := h
  obtain ⟨contended, unwrapped⟩ := orderly
  obtain ⟨lock, stepped, rfl⟩ := Option.map_eq_some_iff.mp move
  cases a with
  | fetchAndAdd p =>
    obtain ⟨idle, made⟩ := step_fetchAndAdd stepped
    exact ⟨first, served.fetchAndAdd idle unwrapped made contended⟩
  | test p =>
    obtain ⟨slot, spin, rfl | ⟨set, rfl⟩⟩ := step_test stepped
    · exact ⟨first, served⟩
    · exact ⟨first, served.test pos spin set⟩
  | clear p =>
    obtain ⟨slot, returned, rfl⟩ := step_clear stepped
    exact ⟨first, served.clear returned⟩
  | set p =>
    obtain ⟨slot, cleared, rfl⟩ := step_set stepped
    exact ⟨first + 1, served.set cleared⟩

/-- Whoever waits has a turn among those that are out. -/
theorem turn_bounds {last first : ℕ} {ticket : π → ℕ} {lock : State π} (served : Served m lock last first ticket)
    {p : π} (busy : lock.pc p ≠ .idle) : first ≤ ticket p ∧ ticket p < last := by
  cases here : lock.pc p with
  | idle => exact absurd here busy
  | spin slot | returned slot | cleared slot =>
    obtain ⟨low, high, -⟩ := served.waiting p slot (by rw [here]; rfl)
    exact ⟨low, high⟩

/-- The first in line goes on: its flag is set while it spins. -/
theorem first_moves [DecidableEq π] (pos : 0 < m) {last first : ℕ} {ticket : π → ℕ} {lock : State π}
    (served : Served m lock last first ticket) {q : π} (busy : lock.pc q ≠ .idle) (own : ticket q = first) :
    ∃ a lock', a.process = q ∧ NotifLock.step m lock a = some lock' ∧ lock'.pc q ≠ lock.pc q := by
  cases here : lock.pc q with
  | idle => exact absurd here busy
  | spin slot =>
    obtain ⟨-, -, place⟩ := served.waiting q slot (by rw [here]; rfl)
    have nobody : ∀ p, (lock.pc p).passing = false := by
      intro p
      by_contra passing
      rw [Bool.not_eq_false] at passing
      have inside : (lock.pc p).inside = true := by
        cases at_p : lock.pc p with
        | cleared slot => rfl
        | idle | spin slot | returned slot => simp [at_p, Pc.passing] at passing
      have same : p = q := served.distinct p q (fun idle => by simp [idle, Pc.inside] at inside) busy
        ((served.inside p inside).trans own.symm)
      rw [same, here] at passing
      contradiction
    have lit : lock.words slot ≠ 0 := by
      rw [place, own]
      exact (served.flags _ (Nat.mod_lt _ pos)).mpr ⟨rfl, nobody⟩
    refine ⟨.test q, lock.setPc q (.returned slot), rfl, ?_, by rw [State.setPc_self]; simp⟩
    simp only [NotifLock.step, here]
    rw [if_neg lit]
  | returned slot =>
    refine ⟨.clear q, (lock.write slot 0).setPc q (.cleared slot), rfl, ?_, by rw [State.setPc_self]; simp⟩
    simp only [NotifLock.step, here]
  | cleared slot =>
    refine ⟨.set q, (lock.write ((slot + 1).tmod m) 1).setPc q .idle, rfl, ?_, by rw [State.setPc_self]; simp⟩
    simp only [NotifLock.step, here]

end Timed

end FoMPI.NotifLock
