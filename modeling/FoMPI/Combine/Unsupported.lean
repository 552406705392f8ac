import FoMPI.Combine.Entries

/-!
# Combinations that `foMPI_RMA_op` does not know

`foMPI_Fetch_and_op` looks at the return code of `foMPI_RMA_op`, returns it and leaves the
target as it is. In a release build the other two calls do not look at it.
-/
namespace FoMPI.Combine
open FoMPI.Accumulate FoMPI.Comm FoMPI.Dcache FoMPI.Foundation FoMPI.RmaNotify FoMPI.Window

universe u

/-- `foMPI_RMA_op` leaves the result buffer as it is and returns an error. -/
def Unsupported {V : Type u} (M : Machine V) (T : BasicType) (op : Op) : Prop :=
  ∀ p3 p1 p2 (m : Memory V) count,
    (rmaOp M T p3 p1 p2 m op count).1 = m ∧ (rmaOp M T p3 p1 p2 m op count).2 ≠ .success

variable {ι V : Type u}

/-- A call returns an error, with the target as it was and the mutex released. -/
def FailsCleanly (s : State ι V) (call : Option (Status × State ι V)) : Prop :=
  ∃ status t, call = some (status, t) ∧ status ≠ .code .success ∧
    (∀ x, t.mem ⟨.target, x⟩ = s.mem ⟨.target, x⟩) ∧ t.mutex = mutexNone

variable {M : Machine V} {W : Win} {D : Types ι} {layout : Layout ι} {C : Call ι}
  {T : BasicType} {s t : State ι V} {status : Status} {garbage : ℕ}

/-- A call that reports nothing but success. -/
def OnlySuccess (call : Option (Status × State ι V)) : Prop :=
  ∀ status t, call = some (status, t) → status = .code .success

namespace OnlySuccess

theorem not_failsCleanly {call : Option (Status × State ι V)} (only : OnlySuccess call) :
    ¬FailsCleanly s call := by
  rintro ⟨status, t, ran, error, -⟩
  exact error (only status t ran)

theorem some (t : State ι V) : OnlySuccess (Option.some (.code .success, t)) := by
  intro status t ran
  cases ran
  rfl

theorem map (call : Option (State ι V)) : OnlySuccess (call.map fun s => (.code .success, s)) := by
  intro status t ran
  obtain ⟨u, -, eq⟩ := Option.map_eq_some_iff.mp ran
  cases eq
  rfl

theorem bind {β : Type u} {x : Option β} {f : β → Option (Status × State ι V)}
    (only : ∀ b, OnlySuccess (f b)) : OnlySuccess (x.bind f) := by
  intro status t ran
  obtain ⟨b, -, ran⟩ := Option.bind_eq_some_iff.mp ran
  exact only b status t ran

end OnlySuccess

section Fetch
variable {addr : ℤ}

/-- An error of `foMPI_RMA_op` is returned, and nothing is put. -/
theorem fetchAndCombine_unsupported (unsupported : Unsupported M T C.op)
    (combines : C.op ≠ .replace ∧ C.op ≠ .noOp) (addr : ℤ) (m : Memory V) :
    (fetchAndCombine M C T addr m).2 ≠ .success ∧
      ∀ x, (fetchAndCombine M C T addr m).1 ⟨.target, x⟩ = m ⟨.target, x⟩ := by
  let got := copyAll ((List.range T.size).map fun k : ℕ =>
    ((⟨.result, C.resultAddr + k⟩ : Loc), (⟨.target, addr + k⟩ : Loc))) m
  obtain ⟨same, error⟩ :=
    unsupported ⟨.buffer, C.bufferAddr⟩ ⟨.origin, C.originAddr⟩ ⟨.result, C.resultAddr⟩ got 1
  have returned : fetchAndCombine M C T addr m =
      rmaOp M T ⟨.buffer, C.bufferAddr⟩ ⟨.origin, C.originAddr⟩ ⟨.result, C.resultAddr⟩ got C.op 1 := by
    unfold fetchAndCombine
    simp only [if_neg combines.1, if_neg combines.2]
    rw [if_neg error]
  rw [returned, same]
  refine ⟨error, fun x => copyAll_frame _ m fun p hp => ?_⟩
  obtain ⟨k, -, rfl⟩ := List.mem_map.mp hp
  simp

/-- The other two operations are carried out, on any type. -/
theorem fetchAndCombine_success (carried : C.op = .replace ∨ C.op = .noOp) (m : Memory V) :
    (fetchAndCombine M C T addr m).2 = .success := by
  unfold fetchAndCombine
  obtain op | op := carried <;> simp [op]

theorem fetchAndOp_eq (free : s.mutex = mutexNone) (found : fetchAddr W C T = some addr) :
    fetchAndOp M W C T s = some (.code (fetchAndCombine M C T addr s.mem).2,
      ⟨(fetchAndCombine M C T addr s.mem).1, s.cache, mutexNone⟩) := by
  simp [fetchAndOp, found, setWindowMutex, free, releaseWindowMutex, acswap]

end Fetch

variable [DecidableEq ι]

namespace OnlySuccess

/-- `foMPI_Accumulate` on datatypes of one basic type. -/
theorem accumulate (origin : D.checkBasicType C.origin.1 = Option.some T)
    (target : D.checkBasicType C.target.1 = Option.some T) :
    OnlySuccess (Combine.accumulate M W D layout C garbage s) := by
  unfold Combine.accumulate
  split
  · exact some s
  split
  · exact map _
  split
  · exact map _
  split
  · exact map _
  rw [origin, target]
  simp only [ne_eq, not_true_eq_false, if_false]
  exact bind fun _ => bind fun _ => bind fun _ => bind fun _ => some _

theorem getAccumulate : OnlySuccess (Combine.getAccumulate M W D layout C s) := by
  unfold Combine.getAccumulate
  split
  · exact some s
  split
  · exact some _
  exact bind fun _ => bind fun _ => bind fun _ => some _

end OnlySuccess

/-- The three calls, `foMPI_Fetch_and_op` on the type itself. -/
def enter (M : Machine V) (W : Win) (D : Types ι) (layout : Layout ι) (C : Call ι) (T : BasicType)
    (garbage : ℕ) (s : State ι V) : Entry → Option (Status × State ι V)
  | .accumulate => accumulate M W D layout C garbage s
  | .getAccumulate => getAccumulate M W D layout C s
  | .fetchAndOp => fetchAndOp M W C T s

/-- Exactly `foMPI_Fetch_and_op` fails cleanly, other than for the two operations that it carries out
without `foMPI_RMA_op`. -/
theorem unsupported_fails_cleanly (unsupported : Unsupported M T C.op)
    (origin : D.checkBasicType C.origin.1 = some T) (target : D.checkBasicType C.target.1 = some T)
    (free : s.mutex = mutexNone) (entry : Entry) :
    FailsCleanly s (enter M W D layout C T garbage s entry) ↔
      entry = .fetchAndOp ∧ (fetchAddr W C T = none ∨ C.op ≠ .replace ∧ C.op ≠ .noOp) := by
  cases entry with
  | accumulate => simpa [enter] using (OnlySuccess.accumulate origin target).not_failsCleanly
  | getAccumulate => simpa [enter] using OnlySuccess.getAccumulate.not_failsCleanly
  | fetchAndOp =>
    simp only [enter, true_and]
    cases found : fetchAddr W C T with
    | none =>
      simp only [true_or, iff_true]
      exact ⟨.winMemNotFound, s, by simp [fetchAndOp, found], by decide, fun _ => rfl, free⟩
    | some addr =>
      rw [fetchAndOp_eq free found]
      simp only [reduceCtorEq, false_or]
      by_cases combines : C.op ≠ .replace ∧ C.op ≠ .noOp
      · obtain ⟨error, same⟩ := fetchAndCombine_unsupported unsupported combines addr s.mem
        refine ⟨fun _ => combines, fun _ => ⟨_, _, rfl, ?_, same, rfl⟩⟩
        exact fun success => error (Status.code.inj success)
      · refine ⟨?_, fun combines' => absurd combines' combines⟩
        rintro ⟨status, t, ran, error, -⟩
        cases ran
        refine absurd (fetchAndCombine_success ?_ s.mem) fun success => error (congrArg Status.code success)
        by_cases replace : C.op = .replace
        · exact .inl replace
        · exact .inr (not_not.mp fun noOp => combines ⟨replace, noOp⟩)

/-- Bitwise operations have no case for `MPI_FLOAT`. -/
theorem float_band_unsupported {V : Type u} (M : Machine V) : Unsupported M .float .band :=
  fun _ _ _ _ _ => ⟨rfl, fun success => nomatch success⟩

/-- What the memory from `_foMPI_ALLOC` held is put, and success returned. -/
theorem unsupported_fails_cleanly_fails : Unsupported words .float .band ∧
    (getAccumulate words (remote 4) predefined rows (elementsCall .band .float 1) (initially five)).map
      (fun r => (r.1, r.2.mem ⟨.target, 4096⟩)) = some (.code .success, 0) ∧
    (initially five).mem ⟨.target, 4096⟩ = 5 :=
  ⟨float_band_unsupported words, by decide +kernel, by decide⟩

theorem unsupported_fails_cleanly_fetch : FailsCleanly (initially five)
    (enter words (remote 4) predefined rows (elementsCall .band .float 1) .float 0 (initially five)
      .fetchAndOp) :=
  (unsupported_fails_cleanly (float_band_unsupported words) rfl rfl rfl .fetchAndOp).mpr
    ⟨rfl, .inr ⟨by decide, by decide⟩⟩

end FoMPI.Combine
