import FoMPI.RmaRequest.Usable

/-!
# What a test makes of completed operations

`foMPI_Rma_test_wait` on a request whose operation is complete. Only the branch for two
counters of zero stores a status, and a test never looks at the source completion queue.
-/
namespace FoMPI.RmaRequest
open FoMPI.Req (Status World)

variable {ω κ σ : Type*} {N : Network ω σ} {a : Args ω} {p : ℕ} {s t : State ω σ} {res : ℤ}

/-- No operation on the window is under way: `dmapp_gsync_test` reports completion, and of the posts only
events are left. -/
structure Completed (W : World ω κ) (win : ω) : Prop where
  dmapp : W.dmapp = []
  posts : ∀ o ∈ W.ugni, o.1 ≠ W.fompiComm win

/-- What the caller finds in its status. -/
def Reports (ignore : Bool) (status : Status) (a : Args ω) : Prop :=
  ignore = false → status = .rma a.targetRank a.targetCount

variable [DecidableEq ω] [DecidableEq κ]

/-- A test reports completion, with the status that a wait stores as well. -/
def Recognised (W : World ω κ) (t : State ω σ) (a : Args ω) (ignore : Bool) : Prop :=
  ∃ tested waited, testWait W t false = some tested ∧ testWait W t true = some waited ∧
    tested.flag = true ∧ Reports ignore tested.status a ∧ Reports ignore waited.status a

section Test
variable {W : World ω κ} {wait : Bool}

/-- Both counters are zero. -/
def Synchronized (W : World ω κ) (win : ω) : Prop :=
  W.nbiCounter win = 0 ∧ W.counterUgniNbi (W.fompiComm win) = 0

theorem Fresh.test_eq (fresh : Fresh a s t) (W : World ω κ) :
    testWait W t false = some (Req.settle (Req.rmaTestWait W a.rma false).1 (Req.rmaTestWait W a.rma false).2) := by
  rw [testWait, fresh.handle]
  rfl

theorem Fresh.wait_eq (fresh : Fresh a s t) (W : World ω κ) :
    testWait W t true = some (Req.settle false (Req.rmaTestWait W a.rma true).2) := by
  rw [testWait, fresh.handle]
  rfl

theorem rmaTestWait_synchronized (zero : Synchronized W a.win) :
    Req.rmaTestWait W a.rma wait = (true, ⟨.rma a.targetRank a.targetCount, .rma a.rma, W⟩) := if_pos zero

/-- Otherwise the status is left alone; a test asks dmapp, but goes by the counter of uGNI. -/
theorem rmaTestWait_counted (counted : ¬Synchronized W a.win) :
    Req.rmaTestWait W a.rma wait = if wait then (true, ⟨.untouched, .rma a.rma, W.flushAll a.win⟩)
      else (if 0 < W.counterUgniNbi (W.fompiComm a.win) then false else W.dmapp.isEmpty,
        ⟨.untouched, .rma a.rma, W⟩) := if_neg counted

omit [DecidableEq ω] [DecidableEq κ] in
theorem flag_completed (completed : Completed W a.win) :
    (if 0 < W.counterUgniNbi (W.fompiComm a.win) then false else W.dmapp.isEmpty) = true ↔
      W.counterUgniNbi (W.fompiComm a.win) = 0 := by
  split
  · rename_i outstanding
    exact iff_of_false Bool.false_ne_true outstanding.ne'
  · rename_i none
    exact iff_of_true (List.isEmpty_iff.mpr completed.dmapp) (Nat.eq_zero_of_not_pos none)

end Test

/-- For every request that one of the calls returned, every state in which the operations on its window are
complete and whatever the two counters hold: a test recognises it exactly if the counter of uGNI is zero
and, where a status is asked for, that of the window as well. -/
theorem completed_recognised_iff {W : World ω κ} (r : Routine) (run : r.run N a p s = some (res, t))
    (goes : ¬r.Exits N a) (completed : Completed W a.win) (ignore : Bool) :
    Recognised W t a ignore ↔
      W.counterUgniNbi (W.fompiComm a.win) = 0 ∧ (ignore = false → W.nbiCounter a.win = 0) := by
  have fresh := run_fresh run goes
  have tests := fresh.test_eq W
  have waits := fresh.wait_eq W
  by_cases zero : Synchronized W a.win
  · refine iff_of_true ⟨_, _, tests, waits, ?_, fun _ => ?_, fun _ => ?_⟩ ⟨zero.2, fun _ => zero.1⟩
    all_goals simp [Req.settle, rmaTestWait_synchronized zero]
  · rw [rmaTestWait_counted zero, if_neg Bool.false_ne_true] at tests
    rw [rmaTestWait_counted zero, if_pos rfl] at waits
    have flag := flag_completed completed
    constructor
    · rintro ⟨tested, waited, test, -, set, reports, -⟩
      obtain rfl := Option.some.inj (tests.symm.trans test)
      refine ⟨flag.mp set, fun asked => ?_⟩
      have stored : Status.untouched = .rma a.targetRank a.targetCount := reports asked
      contradiction
    · rintro ⟨none, stored⟩
      have ignored : ignore ≠ false := fun asked => zero ⟨stored asked, none⟩
      exact ⟨_, _, tests, waits, flag.mpr none, fun asked => absurd asked ignored, fun asked => absurd asked ignored⟩

section Runs

/-- One window on one communicator, with no operation under way. -/
def quiet (nbiCounter : BitVec 32) (counterUgniNbi : ℕ) : World Unit Unit :=
  ⟨fun _ => ⟨false, 0, 0, []⟩, fun _ => (), fun _ => ⟨[], [], []⟩, fun _ => nbiCounter,
    fun _ => counterUgniNbi, [], [], []⟩

/-- The arguments of a put of one element to rank 1 with tag 7. -/
def oneElement : Args Unit := ⟨(), 1, 1, 1, 1, 7, 0⟩

/-- The event of a post is in the source completion queue, and the test reports nothing. -/
theorem completed_recognised_fails : ∃ t, rputNotify accepting oneElement 128 stale = some (mpiSuccess, t) ∧
    Completed (quiet 0 1) () ∧ ¬Recognised (quiet 0 1) t oneElement true ∧
      ∃ tested, testWait (quiet 0 1) t false = some tested ∧ tested.flag = false := by
  refine ⟨_, rfl, ⟨rfl, fun o ho => absurd ho List.not_mem_nil⟩, ?_, _, rfl, rfl⟩
  rintro ⟨tested, waited, test, -, set, -, -⟩
  obtain rfl := Option.some.inj test
  contradiction

/-- With its status ignored the completion of a put is recognised before any flush. -/
theorem completed_recognised_ignored : ∃ t, rput accepting oneElement 128 stale = some (mpiSuccess, t) ∧
    Recognised (quiet 2 0) t oneElement true := by
  obtain ⟨t, run⟩ : ∃ t, Routine.rput.run accepting oneElement 128 stale = some (mpiSuccess, t) := ⟨_, rfl⟩
  refine ⟨t, run, (completed_recognised_iff .rput run ?_ ?_ true).mpr ⟨rfl, by decide⟩⟩
  · rintro (rank | count | count)
    · exact absurd rank (by decide)
    · exact absurd count (by decide)
    · exact absurd count (by decide)
  · exact ⟨rfl, fun o ho => absurd ho List.not_mem_nil⟩

end Runs

end FoMPI.RmaRequest
