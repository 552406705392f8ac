import FoMPI.WinLock.Safety

/-!
# When a lock is granted

The words say exactly what stands in the way of a lock: who holds or announces one, and which
releases are on their way. So an attempt succeeds if and only if nothing that conflicts is left
of others.
-/
namespace FoMPI.WinLock
open FoMPI.Foundation
open scoped BigOperators

variable {n : ℕ} {s t : State n}

section Flight

theorem flight_lockMutex (r : Fin n) (msgs : List (Word n × ℤ)) (valid : ∀ m ∈ msgs, Release m) :
    (flight msgs (.lockMutex r)).sum = -(2 * msgs.countP (·.1 = .lockMutex r) : ℤ) := by
  unfold flight
  induction msgs with
  | nil => simp
  | cons m rest ih =>
    have sum := ih fun m' hm => valid m' (List.mem_cons_of_mem _ hm)
    have release := valid m List.mem_cons_self
    rw [List.map_cons, List.sum_cons, sum, List.countP_cons]
    by_cases here : m.1 = .lockMutex r
    · simp only [Release, here] at release
      simp only [here, if_true, release, decide_true]
      push_cast
      ring
    · simp [here]

theorem flight_lockAllMutex (msgs : List (Word n × ℤ)) (valid : ∀ m ∈ msgs, Release m) :
    (flight msgs .lockAllMutex).sum =
      -(msgs.count (.lockAllMutex, -1) + 4294967296 * msgs.count (.lockAllMutex, -4294967296) : ℤ) := by
  unfold flight
  induction msgs with
  | nil => simp
  | cons m rest ih =>
    have sum := ih fun m' hm => valid m' (List.mem_cons_of_mem _ hm)
    have release := valid m List.mem_cons_self
    obtain ⟨w, d⟩ := m
    rw [List.map_cons, List.sum_cons, sum, List.count_cons, List.count_cons]
    cases w with
    | lockMutex r => simp
    | lockAllMutex =>
      obtain rfl | rfl : d = -1 ∨ d = -4294967296 := release
      · simp
        ring
      · simp
        ring

end Flight

/-- Nobody has a lock on the rank or waits for a shared one, and no release of one is on its way. -/
def Unlocked (s : State n) (r : Fin n) : Prop :=
  (∀ q, (s.proc q).held r = none ∧ (s.proc q).pc ≠ .sharedSpin r) ∧ ∀ m ∈ s.undelivered, m.1 ≠ .lockMutex r

/-- Nobody counts exclusive locks or asks for the first one, and no end of them is on its way. -/
def NoExclusive (s : State n) : Prop :=
  (∀ q, (s.proc q).localExclusiveCount = 0#32 ∧ (s.proc q).pc.joins = false) ∧
    (.lockAllMutex, -1) ∉ s.undelivered

/-- Nobody has a lock_all lock or waits for one, and no release of one is on its way. -/
def NoLockAll (s : State n) : Prop :=
  (∀ q, (s.proc q).heldAll = false ∧ (s.proc q).pc ≠ .lockAllSpin) ∧
    (.lockAllMutex, -4294967296) ∉ s.undelivered

section Words
variable (inv : Inv s) (small : n + s.undelivered.length < 2 ^ 31)
include inv small

theorem lockMutex_toNat (r : Fin n) : (s.mem (.lockMutex r)).toNat = ∑ p, (s.proc p).exclusiveOn r +
    2 * (∑ p, (s.proc p).sharedOn r + s.undelivered.countP (·.1 = .lockMutex r)) := by
  refine (inv.balanced (.lockMutex r)).toNat_eq ?_ ?_
  · simp only [Proc.share, flight_lockMutex r s.undelivered inv.releases, Finset.sum_add_distrib, ← Finset.mul_sum]
    push_cast
    ring
  · have := sum_indicator_le _ fun p => exclusiveOn_le_one (s.proc p) r
    have := sum_indicator_le _ fun p => sharedOn_le_one (s.proc p) r
    have : s.undelivered.countP (·.1 = .lockMutex r) ≤ s.undelivered.length := List.countP_le_length
    omega

theorem lockAllMutex_toNat : (s.mem .lockAllMutex).toNat =
    (∑ p, (s.proc p).joined + s.undelivered.count (.lockAllMutex, -1)) +
      4294967296 * (∑ p, (s.proc p).announced + s.undelivered.count (.lockAllMutex, -4294967296)) ∧
    ∑ p, (s.proc p).joined + s.undelivered.count (.lockAllMutex, -1) < 2 ^ 31 := by
  have := sum_indicator_le _ fun p => joined_le_one (s.proc p)
  have := sum_indicator_le _ fun p => announced_le_one (s.proc p)
  have : s.undelivered.count (.lockAllMutex, -1) ≤ s.undelivered.length := List.count_le_length
  have : s.undelivered.count (.lockAllMutex, -4294967296) ≤ s.undelivered.length := List.count_le_length
  refine ⟨(inv.balanced .lockAllMutex).toNat_eq ?_ (by omega), by omega⟩
  simp only [Proc.share, flight_lockAllMutex s.undelivered inv.releases, Finset.sum_add_distrib, ← Finset.mul_sum]
  push_cast
  ring

theorem lockMutex_even_iff (r : Fin n) :
    s.mem (.lockMutex r) &&& 1#64 = 0#64 ↔ ∀ q, (s.proc q).held r ≠ some .exclusive := by
  refine ⟨fun even q => target_even inv small even q, fun free => ?_⟩
  have none : ∑ p, (s.proc p).exclusiveOn r = 0 :=
    Finset.sum_eq_zero fun p _ => by simp [Proc.exclusiveOn, free p]
  refine (and_low_eq_zero (k := 1) rfl).mpr ?_
  have := lockMutex_toNat inv small r
  omega

theorem lockMutex_zero_iff (r : Fin n) : s.mem (.lockMutex r) = 0#64 ↔ Unlocked s r := by
  have value := lockMutex_toNat inv small r
  constructor
  · intro zero
    rw [zero, BitVec.toNat_zero] at value
    have none : ∑ p, (s.proc p).sharedOn r = 0 := by omega
    have landed : s.undelivered.countP (·.1 = .lockMutex r) = 0 := by omega
    refine ⟨fun q => ⟨target_free inv small zero q, fun spins => ?_⟩, fun m mem same => ?_⟩
    · have := Finset.sum_eq_zero_iff.mp none q (Finset.mem_univ q)
      simp [Proc.sharedOn, spins] at this
    · exact absurd (List.countP_eq_zero.mp landed m mem) (by simp [same])
  · rintro ⟨free, landed⟩
    have exclusive : ∑ p, (s.proc p).exclusiveOn r = 0 :=
      Finset.sum_eq_zero fun p _ => by simp [Proc.exclusiveOn, (free p).1]
    have shared : ∑ p, (s.proc p).sharedOn r = 0 :=
      Finset.sum_eq_zero fun p _ => by simp [Proc.sharedOn, free p]
    have gone : s.undelivered.countP (·.1 = .lockMutex r) = 0 :=
      List.countP_eq_zero.mpr fun m mem => by simp [landed m mem]
    rw [exclusive, shared, gone] at value
    exact BitVec.eq_of_toNat_eq value

theorem lockAllMutex_low_iff : s.mem .lockAllMutex &&& exclusiveMask = 0#64 ↔ NoExclusive s := by
  obtain ⟨value, low⟩ := lockAllMutex_toNat inv small
  have clear := and_low_eq_zero (x := s.mem .lockAllMutex) (m := exclusiveMask) (k := 32) (by decide)
  refine clear.trans ⟨fun zero => ?_, fun ⟨free, landed⟩ => ?_⟩
  · have none : ∑ p, (s.proc p).joined = 0 := by omega
    have gone : s.undelivered.count (.lockAllMutex, -1) = 0 := by omega
    refine ⟨fun q => ?_, List.count_eq_zero.mp gone⟩
    have := Finset.sum_eq_zero_iff.mp none q (Finset.mem_univ q)
    simpa [Proc.joined] using this
  · have none : ∑ p, (s.proc p).joined = 0 := Finset.sum_eq_zero fun p _ => by simp [Proc.joined, free p]
    have gone := List.count_eq_zero.mpr landed
    omega

theorem lockAllMutex_high_iff : s.mem .lockAllMutex &&& lockAllMask = 0#64 ↔ NoLockAll s := by
  obtain ⟨value, low⟩ := lockAllMutex_toNat inv small
  refine and_high_eq_zero.trans ⟨fun below => ?_, fun ⟨free, landed⟩ => ?_⟩
  · have none : ∑ p, (s.proc p).announced = 0 := by omega
    have gone : s.undelivered.count (.lockAllMutex, -4294967296) = 0 := by omega
    refine ⟨fun q => ?_, List.count_eq_zero.mp gone⟩
    have := Finset.sum_eq_zero_iff.mp none q (Finset.mem_univ q)
    simpa [Proc.announced] using this
  · have none : ∑ p, (s.proc p).announced = 0 := Finset.sum_eq_zero fun p _ => by simp [Proc.announced, free p]
    have gone := List.count_eq_zero.mpr landed
    omega

end Words

/-- What the next operation of a process on its way to a lock achieves. -/
structure Grants (s : State n) (p : Fin n) (t : State n) : Prop where
  shared : ∀ r, (s.proc p).pc = .sharedAnnounce r ∨ (s.proc p).pc = .sharedSpin r →
    ((t.proc p).held r = some .shared ↔ ∀ q, (s.proc q).held r ≠ some .exclusive)
  exclusive : ∀ r, (s.proc p).pc = .exclusiveSwap r ∨ (s.proc p).pc = .exclusiveSwapOnly r →
    ((t.proc p).held r = some .exclusive ↔ Unlocked s r)
  join : ∀ r, (s.proc p).pc = .exclusiveJoin r → ((t.proc p).pc = .exclusiveSwap r ↔ NoLockAll s)
  all : (s.proc p).pc = .lockAllAnnounce ∨ (s.proc p).pc = .lockAllSpin →
    ((t.proc p).heldAll = true ↔ NoExclusive s)

/-- A lock is granted exactly if nothing of others is left that conflicts with it: for a shared lock an exclusive
one on the rank, for an exclusive lock any on the rank, for the first exclusive lock and for lock_all each other. -/
theorem grants_exact (run : Reach step Bounded (init n) s) {p : Fin n} (move : step s (.run p) = some t)
    (bounded : Bounded s (.run p) t) : Grants s p t := by
  have inv : Inv s := run.invariant Inv.init fun _ _ _ inv move bounded => inv.step move bounded
  have control := (inv.ok p).control
  unfold Proc.Control at control
  obtain ⟨fetched, P', u, resumed, rfl, procs, reads, effect⟩ := run_cases move
  have small : n + s.undelivered.length < 2 ^ 31 := by
    obtain ⟨rfl, -⟩ | ⟨op, -, -, rfl⟩ := effect
    · exact bounded
    · have grown : n + (s.execute op).2.undelivered.length < 2 ^ 31 := bounded
      obtain same | ⟨w, d, -, posted⟩ := execute_undelivered s op
      · rwa [same] at grown
      · rw [posted, List.length_cons] at grown
        omega
  have after : (u.setProc p P').proc p = P' := by simp [State.setProc]
  refine ⟨fun r here => ?_, fun r here => ?_, fun r here => ?_, fun here => ?_⟩
  · have reads := reads (.lockMutex r) (by
      obtain here | here := here
      · exact ⟨.afadd (.lockMutex r) 2, by simp [Proc.remoteOp, here], rfl⟩
      · exact ⟨.get (.lockMutex r), by simp [Proc.remoteOp, here], rfl⟩)
    have made : P' = (s.proc p).acquireShared r fetched := by
      obtain here | here := here <;>
      · simp only [Proc.resume, here, Option.some.injEq] at resumed
        exact resumed.symm
    have free : (s.proc p).held r = none := by
      obtain here | here := here <;>
      · rw [here] at control
        exact control.1
    rw [after, made, ← lockMutex_even_iff inv small r, ← reads]
    unfold Proc.acquireShared
    split
    · rename_i even
      simp [even]
    · rename_i odd
      simp [odd, free]
  · have reads := reads (.lockMutex r) (by
      obtain here | here := here <;> exact ⟨.acswap (.lockMutex r) 0 1, by simp [Proc.remoteOp, here], rfl⟩)
    have free : (s.proc p).held r = none := by
      obtain here | here := here <;>
      · rw [here] at control
        exact control.2.1
    rw [after, ← lockMutex_zero_iff inv small r, ← reads]
    obtain here | here := here <;>
    · simp only [Proc.resume, here, Option.some.injEq] at resumed
      subst resumed
      split
      · rename_i zero
        simp [Proc.acquireExclusive, zero]
      · rename_i taken
        simp [taken, free]
  · have reads := reads .lockAllMutex ⟨.afadd .lockAllMutex 1, by simp [Proc.remoteOp, here], rfl⟩
    simp only [Proc.resume, here, Option.some.injEq] at resumed
    subst resumed
    rw [after, ← lockAllMutex_high_iff inv small, ← reads]
    split
    · rename_i clear
      simp [clear]
    · rename_i taken
      simp [taken]
  · have reads := reads .lockAllMutex (by
      obtain here | here := here
      · exact ⟨.afadd .lockAllMutex 4294967296, by simp [Proc.remoteOp, here], rfl⟩
      · exact ⟨.get .lockAllMutex, by simp [Proc.remoteOp, here], rfl⟩)
    have made : P' = (s.proc p).acquireAll fetched := by
      obtain here | here := here <;>
      · simp only [Proc.resume, here, Option.some.injEq] at resumed
        exact resumed.symm
    have free : (s.proc p).heldAll = false := by
      obtain here | here := here <;>
      · rw [here] at control
        exact control.2
    rw [after, made, ← lockAllMutex_low_iff inv small, ← reads]
    unfold Proc.acquireAll
    split
    · rename_i clear
      simp [clear]
    · rename_i taken
      simp [taken, free]

/-- A process that asks for a shared lock on rank 1, which process 0 holds exclusively. -/
theorem grants_exact_refused : ∃ s t : State 2, (s.proc 0).held 1 = some .exclusive ∧
    (s.proc 1).pc = .sharedAnnounce 1 ∧ step s (.run 1) = some t ∧ (t.proc 1).held 1 ≠ some .shared ∧ Grants s 1 t := by
  have ran : (execWhen step (fun _ _ t => decide (2 + t.undelivered.length < 2 ^ 31)) (init 2)
      [.winLock 0 .exclusive 1, .run 0, .run 0, .winLock 1 .shared 1]).map
      (fun s => ((s.proc 0).held 1, (s.proc 1).pc, (step s (.run 1)).map fun t => t.undelivered)) =
      some (some .exclusive, .sharedAnnounce 1, some []) := by
    decide +kernel
  obtain ⟨s, run, trace⟩ := Option.map_eq_some_iff.mp ran
  simp only [Prod.mk.injEq] at trace
  obtain ⟨held, here, next⟩ := trace
  obtain ⟨t, move, landed⟩ := Option.map_eq_some_iff.mp next
  have reached : Reach step Bounded (init 2) s :=
    Reach.of_execWhen (fun _ _ _ h => by simpa [Bounded] using h) _ run
  have grants : Grants s 1 t := grants_exact reached move (by simp [Bounded, landed])
  exact ⟨s, t, held, here, move, fun got => (grants.shared 1 (.inl here)).mp got 0 held, grants⟩

end FoMPI.WinLock
