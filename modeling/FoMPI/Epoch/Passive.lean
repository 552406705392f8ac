import FoMPI.Foundation.OneSided
import FoMPI.WinLock.Safety

/-!
# Passive-target epochs

The lock routines together with the transfers of `foMPI_Put` and `foMPI_Get`, one element
each. `foMPI_Win_unlock` has looked up the kind of its lock when it flushes, and
`foMPI_Win_unlock_all` flushes first; neither goes on before the transfers of the process are
complete. Locks are what keeps transfers of different processes from each other.
-/
namespace FoMPI.Epoch.Passive
open FoMPI.Foundation FoMPI.WinLock

variable {n : ℕ} {V : Type*}

/-- The lock words and the memory of a window: an element has a rank and a displacement. -/
structure State (n : ℕ) (V : Type*) where
  locks : WinLock.State n
  window : OneSided (Fin n) (Fin n × ℤ) V

inductive Action (n : ℕ) (V : Type*)
  | sync (a : WinLock.Action n)
  /-- `foMPI_Put` of a value, or `foMPI_Get` -/
  | transfer (p rank : Fin n) (disp : ℤ) (value : Option V)
  | complete (i : ℕ)

def init (memory : Fin n × ℤ → V) : State n V := ⟨WinLock.init n, .start memory⟩

/-- The process waits in `foMPI_Win_flush` or `foMPI_Win_flush_all`, or has left it and is about to release. -/
def flushes (P : Proc n) : Bool :=
  match P.pc with
  | .unlockExclusive _ | .unlockShared _ | .unlockAll => true
  | _ => false

/-- A lock of the process covers the rank. -/
def Covers (P : Proc n) (rank : Fin n) : Prop := P.held rank ≠ none ∨ P.heldAll = true

instance (P : Proc n) (rank : Fin n) : Decidable (Covers P rank) :=
  inferInstanceAs (Decidable (_ ∨ _))

/-- The flush of a process that is about to release has returned. -/
def Released (s : State n V) : WinLock.Action n → Prop
  | .run p => flushes (s.locks.proc p) = true → s.window.Quiet (· = p)
  | _ => True

instance (s : State n V) : (a : WinLock.Action n) → Decidable (Released s a)
  | .run p => inferInstanceAs (Decidable (flushes (s.locks.proc p) = true → s.window.Quiet (· = p)))
  | .winLock .. | .winUnlock .. | .winLockAll _ | .winUnlockAll _ | .deliver _ => .isTrue trivial

/-- Transfers are between calls of the lock routines, and under a lock. -/
def step (s : State n V) : Action n V → Option (State n V)
  | .sync a =>
    if Released s a then (WinLock.step s.locks a).map fun locks => { s with locks := locks } else none
  | .transfer p rank disp value =>
    if (s.locks.proc p).pc = .idle ∧ Covers (s.locks.proc p) rank then
      some { s with window := s.window.issue ⟨p, (rank, disp), value⟩ }
    else none
  | .complete i => (s.window.complete i).map fun window => { s with window := window }

/-- What the callers see to: puts are under an exclusive lock, and a process flushes between its own transfers
that conflict. -/
def Disciplined (s : State n V) (a : Action n V) (t : State n V) : Prop :=
  n + t.locks.undelivered.length < 2 ^ 31 ∧
  match a with
  | .transfer p rank disp value =>
    (value ≠ none → (s.locks.proc p).held rank = some .exclusive) ∧
      ∀ m ∈ s.window.inFlight, m.2.origin = p → m.2.Compatible ⟨p, (rank, disp), value⟩
  | _ => True

instance [DecidableEq V] (s : State n V) (a : Action n V) (t : State n V) : Decidable (Disciplined s a t) :=
  match a with
  | .transfer .. => inferInstanceAs (Decidable (_ ∧ (_ → _) ∧ ∀ m ∈ s.window.inFlight, _ → _))
  | .sync _ | .complete _ => inferInstanceAs (Decidable (_ ∧ True))

/-- The lock that a transfer is under. -/
def Under (P : Proc n) (t : Transfer (Fin n) (Fin n × ℤ) V) : Prop :=
  Covers P t.location.1 ∧ (t.value ≠ none → P.held t.location.1 = some .exclusive)

section Locks
variable {P P' : Proc n} {result : BitVec 64} {locks locks' : WinLock.State n} {p q r : Fin n}
  {t : Transfer (Fin n) (Fin n × ℤ) V}

/-- No lock is given up. -/
structure Keeps (P P' : Proc n) : Prop where
  held : ∀ r kind, P.held r = some kind → P'.held r = some kind
  all : P.heldAll = true → P'.heldAll = true

theorem Keeps.same (held : P'.held = P.held) (all : P'.heldAll = P.heldAll) : Keeps P P' :=
  ⟨fun r kind => by rw [held]; exact id, by rw [all]; exact id⟩

/-- A lock is obtained that was not held. -/
theorem Keeps.obtain {kind : LockType} (free : P.held r = none)
    (held : P'.held = Function.update P.held r (some kind)) (all : P'.heldAll = P.heldAll) : Keeps P P' := by
  refine ⟨fun q kind' had => ?_, by rw [all]; exact id⟩
  have other : q ≠ r := by
    rintro rfl
    rw [free] at had
    contradiction
  rw [held, Function.update_of_ne other, had]

theorem Keeps.covers (keeps : Keeps P P') (covers : Covers P r) : Covers P' r := by
  obtain held | all := covers
  · obtain ⟨kind, held⟩ := Option.ne_none_iff_exists'.mp held
    exact .inl (by rw [keeps.held r kind held]; simp)
  · exact .inr (keeps.all all)

theorem Keeps.under (keeps : Keeps P P') (under : Under P t) : Under P' t :=
  ⟨keeps.covers under.1, fun put => keeps.held _ _ (under.2 put)⟩

/-- Only what comes behind a flush gives up a lock. -/
theorem Keeps.of_resume (ok : P.Ok) (busy : ¬flushes P = true) (e : P.resume result = some P') : Keeps P P' := by
  have control := ok.control
  unfold Proc.Control at control
  obtain ⟨op, -, resumes⟩ := Proc.Resumes.of_resume e
  cases resumes with
  | join | joinInVain | swapInVain | swapAgain | backOff | unlockMaster => exact .same rfl rfl
  | swap here =>
    obtain here | here := here <;>
    · rw [here] at control
      exact .obtain control.2.1 rfl rfl
  | announce here | spin here =>
    rw [here] at control
    unfold Proc.acquireShared
    split
    · exact .obtain control.1 rfl rfl
    · exact .same rfl rfl
  | announceAll here | spinAll here =>
    unfold Proc.acquireAll
    split
    · exact ⟨fun _ _ => id, fun _ => rfl⟩
    · exact .same rfl rfl
  | unlockExclusive here | unlockShared here | unlockAll here => simp [flushes, here] at busy

/-- A process that goes through a step of the lock routines with transfers in flight keeps its locks. -/
theorem Keeps.of_step (inv : WinLock.Inv locks) {a : WinLock.Action n} (move : WinLock.step locks a = some locks')
    (busy : a = .run p → ¬flushes (locks.proc p) = true) : Keeps (locks.proc p) (locks'.proc p) := by
  have moved {q : Fin n} {P : Proc n} (keeps : Keeps (locks.proc q) P) :
      Keeps (locks.proc p) ((locks.setProc q P).proc p) := by
    obtain rfl | other := eq_or_ne p q
    · simpa [WinLock.State.setProc] using keeps
    · simpa [WinLock.State.setProc, other] using Keeps.same rfl rfl
  cases a with
  | winLock q kind rank =>
    simp only [WinLock.step, Option.ite_none_right_eq_some, Option.some.injEq] at move
    obtain ⟨-, rfl⟩ := move
    exact moved (by cases kind <;> exact .same rfl rfl)
  | winUnlock q rank =>
    simp only [WinLock.step, Option.ite_none_right_eq_some, Option.some.injEq] at move
    obtain ⟨-, rfl⟩ := move
    refine moved ?_
    unfold Proc.winUnlock
    split <;> exact .same rfl rfl
  | winLockAll q | winUnlockAll q =>
    simp only [WinLock.step, Option.ite_none_right_eq_some, Option.some.injEq] at move
    obtain ⟨-, rfl⟩ := move
    exact moved (.same rfl rfl)
  | run q =>
    obtain ⟨fetched, P', u, resumed, rfl, procs, -⟩ := run_cases move
    obtain rfl | other := eq_or_ne p q
    · simpa [WinLock.State.setProc] using Keeps.of_resume (inv.ok p) (busy rfl) resumed
    · simpa [WinLock.State.setProc, procs, other] using Keeps.same rfl rfl
  | deliver i =>
    obtain ⟨m, -, rfl⟩ := Option.map_eq_some_iff.mp move
    exact .same rfl rfl

end Locks

section Runs
variable {memory : Fin n × ℤ → V} {s t : State n V}

structure Inv (memory : Fin n × ℤ → V) (s : State n V) : Prop where
  locks : WinLock.Inv s.locks
  under : ∀ m ∈ s.window.inFlight, Under (s.locks.proc m.2.origin) m.2
  coherent : s.window.Coherent memory

/-- Under an exclusive lock there are only transfers of the process that holds it. -/
theorem Inv.own (inv : Inv memory s) {p : Fin n} {m : ℕ × Transfer (Fin n) (Fin n × ℤ) V}
    (mem : m ∈ s.window.inFlight) (held : (s.locks.proc p).held m.2.location.1 = some .exclusive) :
    m.2.origin = p := by
  obtain locked | all := (inv.under m mem).1
  · obtain ⟨kind, locked⟩ := Option.ne_none_iff_exists'.mp locked
    cases kind with
    | exclusive => exact inv.locks.unique _ _ _ locked held
    | shared => exact absurd locked (inv.locks.unmixed _ _ _ held)
  · exact absurd (.inl ((inv.locks.ok p).count_ne_zero held)) (inv.locks.apart _ p all)

/-- Under any lock there are only gets beside the transfers of the process that holds it. -/
theorem Inv.others_get (inv : Inv memory s) {p : Fin n} {m : ℕ × Transfer (Fin n) (Fin n × ℤ) V}
    (mem : m ∈ s.window.inFlight) (other : m.2.origin ≠ p) (covers : Covers (s.locks.proc p) m.2.location.1) :
    m.2.value = none := by
  by_contra put
  have held := (inv.under m mem).2 put
  obtain locked | all := covers
  · obtain ⟨kind, locked⟩ := Option.ne_none_iff_exists'.mp locked
    cases kind with
    | exclusive => exact other (inv.locks.unique _ _ _ held locked)
    | shared => exact inv.locks.unmixed _ _ _ held locked
  · exact inv.locks.apart p _ all (.inl ((inv.locks.ok _).count_ne_zero held))

theorem Inv.step {a : Action n V} (inv : Inv memory s) (move : step s a = some t) (disciplined : Disciplined s a t) :
    Inv memory t := by
  cases a with
  | sync a =>
    simp only [Passive.step, Option.ite_none_right_eq_some, Option.map_eq_some_iff] at move
    obtain ⟨released, locks, move, rfl⟩ := move
    refine ⟨inv.locks.step move disciplined.1, fun m mem => ?_, inv.coherent⟩
    refine (Keeps.of_step inv.locks move fun runs flushed => ?_).under (inv.under m mem)
    subst runs
    exact released flushed m mem rfl
  | transfer p rank disp value =>
    simp only [Passive.step, Option.ite_none_right_eq_some, Option.some.injEq] at move
    obtain ⟨⟨-, covers⟩, rfl⟩ := move
    obtain ⟨-, exclusive, flushed⟩ := disciplined
    refine ⟨inv.locks, fun m mem => ?_, inv.coherent.issue fun m mem same => ?_⟩
    · obtain mem | new := OneSided.mem_issue mem
      · exact inv.under m mem
      · rw [new]
        exact ⟨covers, exclusive⟩
    · obtain own | other := eq_or_ne m.2.origin p
      · exact flushed m mem own same
      · refine ⟨inv.others_get mem other (by rw [same]; exact covers), ?_⟩
        by_contra put
        exact other (inv.own mem (by rw [same]; exact exclusive put))
  | complete i =>
    obtain ⟨window, completed, rfl⟩ := Option.map_eq_some_iff.mp move
    exact ⟨inv.locks, fun m mem => inv.under m (OneSided.mem_complete completed mem),
      inv.coherent.complete completed⟩

end Runs

end FoMPI.Epoch.Passive
