import FoMPI.Foundation.Transition
import Mathlib.Data.BitVec
import Mathlib.Data.Finset.Card

/-!
# The lock of the on-node notification queue

`xpmem_notif_lock` and `xpmem_notif_unlock`: processes of a node draw tickets from
`tail` and each spins on the flag of its own slot until its predecessor sets it.
-/
namespace FoMPI.NotifLock
open FoMPI.Foundation

variable {π : Type*}

/-- `fompi_xpmem_notif_state_t` is the three words before `flags_array`, and `tail` is the first. -/
def tail : ℤ := -3

/-- Where a process is: spinning in `xpmem_notif_lock`, returned from it, or between the two writes
of `xpmem_notif_unlock`. -/
inductive Pc
  | idle
  | spin (slot : ℤ)
  | returned (slot : ℤ)
  | cleared (slot : ℤ)
  deriving DecidableEq, Repr

namespace Pc

/-- The slot that a call or a critical section goes by. -/
def slot : Pc → Option ℤ
  | idle => none
  | spin slot | returned slot | cleared slot => some slot

theorem slot_eq_none {pc : Pc} : pc.slot = none ↔ pc = idle := by
  cases pc <;> simp [slot]

/-- Between a returned `xpmem_notif_lock` and the end of `xpmem_notif_unlock`. -/
def inside : Pc → Bool
  | idle | spin _ => false
  | returned _ | cleared _ => true

def passing : Pc → Bool
  | cleared _ => true
  | _ => false

end Pc

/-- The memory of the lock in 32-bit words from `flags_array` on, and its users. -/
structure State (π : Type*) where
  words : ℤ → BitVec 32
  pc : π → Pc

/-- `xpmem_notif_init_queue` for `m` processes on the node; the words around the three counters and the
`m` flags keep what the memory held. -/
def init (m : ℕ) (memory : ℤ → BitVec 32) : State π where
  words i := if tail ≤ i ∧ i < m then if i = 0 then 1 else 0 else memory i
  pc _ := .idle

theorem init_words (m : ℕ) (memory : ℤ → BitVec 32) {i : ℤ} (low : tail ≤ i) (high : i < m) :
    (init m memory : State π).words i = if i = 0 then 1 else 0 :=
  if_pos ⟨low, high⟩

inductive Action (π : Type*)
  | fetchAndAdd (p : π)
  | test (p : π)
  | clear (p : π)
  | set (p : π)
  deriving DecidableEq, Repr

namespace State

def write (s : State π) (i : ℤ) (word : BitVec 32) : State π :=
  { s with words := Function.update s.words i word }

/-- The ticket that the next process draws, as an `int`. -/
def next (s : State π) : ℤ := (s.words tail).toInt

@[simp] theorem write_pc (s : State π) (i : ℤ) (word : BitVec 32) : (s.write i word).pc = s.pc := rfl

theorem write_of_ne (s : State π) {i j : ℤ} (word : BitVec 32) (other : j ≠ i) :
    (s.write i word).words j = s.words j :=
  Function.update_of_ne other _ _

theorem write_self (s : State π) (i : ℤ) (word : BitVec 32) : (s.write i word).words i = word :=
  Function.update_self _ _ _

variable [DecidableEq π]

def setPc (s : State π) (p : π) (pc : Pc) : State π := { s with pc := Function.update s.pc p pc }

@[simp] theorem setPc_words (s : State π) (p : π) (pc : Pc) : (s.setPc p pc).words = s.words := rfl

theorem setPc_self (s : State π) (p : π) (pc : Pc) : (s.setPc p pc).pc p = pc :=
  Function.update_self _ _ _

theorem setPc_of_ne (s : State π) {p q : π} (pc : Pc) (other : q ≠ p) :
    (s.setPc p pc).pc q = s.pc q :=
  Function.update_of_ne other _ _

end State

/-- The atomic steps of the two functions; `%` truncates towards zero, as it does in C. -/
def step [DecidableEq π] (m : ℕ) (s : State π) : Action π → Option (State π)
  | .fetchAndAdd p =>
    match s.pc p with
    | .idle => some ((s.write tail (s.words tail + 1)).setPc p (.spin (s.next.tmod m)))
    | _ => none
  | .test p =>
    match s.pc p with
    | .spin slot => if s.words slot = 0 then some s else some (s.setPc p (.returned slot))
    | _ => none
  | .clear p =>
    match s.pc p with
    | .returned slot => some ((s.write slot 0).setPc p (.cleared slot))
    | _ => none
  | .set p =>
    match s.pc p with
    | .cleared slot => some ((s.write ((slot + 1).tmod m) 1).setPc p .idle)
    | _ => none

section Steps
variable [DecidableEq π] {m : ℕ} {s t : State π} {p : π}

theorem step_fetchAndAdd (move : step m s (.fetchAndAdd p) = some t) : s.pc p = .idle ∧
    t = (s.write tail (s.words tail + 1)).setPc p (.spin (s.next.tmod m)) := by
  simp only [step] at move
  split at move
  · rename_i idle
    exact ⟨idle, (Option.some.inj move).symm⟩
  · contradiction

/-- A process that spins goes on once its flag is set. -/
theorem step_test (move : step m s (.test p) = some t) : ∃ slot, s.pc p = .spin slot ∧
    (t = s ∨ s.words slot ≠ 0 ∧ t = s.setPc p (.returned slot)) := by
  simp only [step] at move
  split at move
  · rename_i slot spin
    refine ⟨slot, spin, ?_⟩
    split at move
    · exact .inl (Option.some.inj move).symm
    · rename_i set
      exact .inr ⟨set, (Option.some.inj move).symm⟩
  · contradiction

theorem step_clear (move : step m s (.clear p) = some t) : ∃ slot, s.pc p = .returned slot ∧
    t = (s.write slot 0).setPc p (.cleared slot) := by
  simp only [step] at move
  split at move
  · rename_i slot returned
    exact ⟨slot, returned, (Option.some.inj move).symm⟩
  · contradiction

theorem step_set (move : step m s (.set p) = some t) : ∃ slot, s.pc p = .cleared slot ∧
    t = (s.write ((slot + 1).tmod m) 1).setPc p .idle := by
  simp only [step] at move
  split at move
  · rename_i slot cleared
    exact ⟨slot, cleared, (Option.some.inj move).symm⟩
  · contradiction

end Steps

/-- No more than `m` processes contend. -/
def Contended (m : ℕ) (s : State π) : Prop :=
  ∀ ps : Finset π, (∀ p ∈ ps, s.pc p ≠ .idle) → ps.card ≤ m

/-- A slot of the array. -/
def InArray (m : ℕ) (slot : ℤ) : Prop := 0 ≤ slot ∧ slot < m

/-- What the lock owes the queue. -/
structure Exclusive (m : ℕ) (s : State π) : Prop where
  slots : ∀ p, ∀ slot ∈ (s.pc p).slot, InArray m slot ∧ InArray m ((slot + 1).tmod m)
  alone : ∀ p q, (s.pc p).inside = true → (s.pc q).inside = true → p = q

/-- A ticket is drawn while `tail` is not negative, or when it is a multiple of the number of slots. -/
def Unwrapped (m : ℕ) (s : State π) : Action π → State π → Prop
  | .fetchAndAdd _, _ => 0 ≤ s.next ∨ (m : ℤ) ∣ s.next
  | _, _ => True

end FoMPI.NotifLock
