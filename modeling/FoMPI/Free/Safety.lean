import FoMPI.Free.Model

/-!
# What is undelivered when a window is freed

The increments of the active-target epochs have been counted by those who wait for
them, so the barrier of `foMPI_Win_free` is enough for them. The additions that release
locks are counted by nobody; they have to be delivered before their issuers enter it.
-/
namespace FoMPI.Free
open FoMPI.Foundation

variable {n : ℕ}

section Locks
variable {s t : WinLock.State n} {a : WinLock.Action n}

/-- An operation of a process issues one addition at most, and nothing else does. -/
theorem undelivered_step (move : WinLock.step s a = some t) :
    (∃ p, a = .run p ∧ (t.undelivered = s.undelivered ∨ ∃ m, t.undelivered = m :: s.undelivered)) ∨
    (∃ i, a = .deliver i ∧ i < s.undelivered.length ∧ t.undelivered = s.undelivered.eraseIdx i) ∨
    (t.undelivered = s.undelivered ∧ ∀ issuers issued, issue issuers issued a = issuers) := by
  cases a with
  | winLock p lockType rank | winUnlock p rank | winLockAll p | winUnlockAll p =>
    simp only [WinLock.step, Option.ite_none_right_eq_some, Option.some.injEq] at move
    obtain ⟨-, rfl⟩ := move
    exact .inr (.inr ⟨rfl, fun _ _ => rfl⟩)
  | run p =>
    obtain ⟨fetched, P', u, resumed, rfl, procs, reads, effect⟩ := WinLock.run_cases move
    refine .inl ⟨p, rfl, ?_⟩
    obtain ⟨rfl, -⟩ | ⟨op, -, -, rfl⟩ := effect
    · exact .inl rfl
    · obtain same | ⟨w, d, -, more⟩ := WinLock.execute_undelivered s op
      · exact .inl same
      · exact .inr ⟨(w, d), more⟩
  | deliver i =>
    simp only [WinLock.step, WinLock.State.deliver, Option.map_eq_some_iff] at move
    obtain ⟨m, found, rfl⟩ := move
    obtain ⟨below, -⟩ := List.getElem?_eq_some_iff.mp found
    exact .inr (.inl ⟨i, rfl, below, rfl⟩)

theorem issue_length {issuers : List (Fin n)} (paired : issuers.length = s.undelivered.length)
    (move : WinLock.step s a = some t) :
    (issue issuers (s.undelivered.length < t.undelivered.length) a).length = t.undelivered.length := by
  obtain ⟨p, rfl, same | ⟨m, more⟩⟩ | ⟨i, rfl, below, less⟩ | ⟨same, keeps⟩ := undelivered_step move
  · simp [issue, same, paired]
  · simp [issue, more, paired]
  · simp [issue, less, List.length_eraseIdx, paired]
  · rw [keeps, paired, same]

/-- Only an operation of its own leaves something of a process undelivered that was not before. -/
theorem not_mem_issue {issuers : List (Fin n)} {issued : Bool} {p : Fin n} (settled : p ∉ issuers)
    (other : a ≠ .run p) : p ∉ issue issuers issued a := by
  cases a with
  | winLock q lockType rank | winUnlock q rank | winLockAll q | winUnlockAll q => exact settled
  | run q =>
    have distinct : p ≠ q := fun same => other (same ▸ rfl)
    cases issued with
    | false => exact settled
    | true => exact List.not_mem_cons_of_ne_of_not_mem distinct settled
  | deliver i => exact fun member => settled (List.mem_of_mem_eraseIdx member)

end Locks

section Epochs
variable {ι : Type*} [DecidableEq ι] {l : Pscw.Layout ι} {s t : Pscw.State ι} {a : Pscw.Action ι} {p : ι}

/-- A step leaves the exposure epochs of those alone who do not take it. -/
theorem exposure_of_other (other : p ∉ a.caller) (move : Pscw.step l s a = some t) :
    t.exposure p = s.exposure p := by
  obtain same | ⟨q, e, caller, new, -⟩ := Pscw.step_exposure move
  · rw [same]
  · have distinct : p ≠ q := fun same => other (same ▸ caller)
    rw [new, Function.update_of_ne distinct]

/-- When all exposure epochs have ended, all increments are delivered. -/
theorem landed_of_ended (inv : Pscw.Inv s) (exposure : ∀ q, s.exposure q = .closed) : s.inFlight = [] := by
  rw [List.eq_nil_iff_forall_not_mem]
  intro m member
  have some_left := List.count_pos_iff.mpr member
  cases m with
  | matchingExposure origin poster =>
    have sent := inv.exposure origin poster
    have posts := inv.posts origin poster
    have bounds := inv.bounds origin poster
    rw [exposure] at posts
    simp only [Pscw.Exposure.posted, List.not_mem_nil, if_false] at posts
    omega
  | globalCounter target =>
    have quiet := (inv.tally target).quiet (by rw [exposure]; rfl)
    omega

end Epochs

section Runs
variable {l : Pscw.Layout (Fin n)} {s t : State n} {a : Action n} {p : Fin n}

theorem not_mem_of_usedBy {caller : Option (Fin n)} (used : s.usedBy caller = true)
    (busy : s.phase p ≠ .inUse) : p ∉ caller := by
  intro same
  rw [Option.mem_def.mp same] at used
  exact busy (of_decide_eq_true used)

/-- What a step can do; the last case is `foMPI_Win_free` behind its first barrier. -/
theorem step_cases (move : step l s a = some t) :
    (∃ b u, a = .lock b ∧ s.usedBy b.caller = true ∧ WinLock.step s.lock b = some u ∧
      t = { s with
        lock := u
        issuers := issue s.issuers (s.lock.undelivered.length < u.undelivered.length) b }) ∨
    (∃ b u, a = .pscw b ∧ s.usedBy b.caller = true ∧ Pscw.step l s.pscw b = some u ∧
      t = { s with pscw := u }) ∨
    (∃ p, a = .gsyncWait p ∧ p ∉ s.issuers ∧ t = s) ∨
    (∃ p, a = .winFree p ∧ s.pscw.exposure p = .closed ∧ t = s.setPhase p .entered) ∨
    (∃ p new, (a = .unregister p ∨ a = .free p) ∧ (∀ q, s.phase q ≠ .inUse) ∧ new ≠ .inUse ∧
      t = s.setPhase p new) := by
  cases a with
  | lock b =>
    simp only [step, Option.ite_none_right_eq_some, Option.map_eq_some_iff] at move
    obtain ⟨used, u, moved, rfl⟩ := move
    exact .inl ⟨b, u, rfl, used, moved, rfl⟩
  | pscw b =>
    simp only [step, Option.ite_none_right_eq_some, Option.map_eq_some_iff] at move
    obtain ⟨used, u, moved, rfl⟩ := move
    exact .inr (.inl ⟨b, u, rfl, used, moved, rfl⟩)
  | gsyncWait p =>
    simp only [step, Option.ite_none_right_eq_some, Option.some.injEq] at move
    obtain ⟨⟨-, settled⟩, rfl⟩ := move
    exact .inr (.inr (.inl ⟨p, rfl, settled, rfl⟩))
  | winFree p =>
    simp only [step] at move
    split at move
    · rename_i exposure
      simp only [Option.ite_none_right_eq_some, Option.some.injEq] at move
      obtain ⟨-, rfl⟩ := move
      exact .inr (.inr (.inr (.inl ⟨p, rfl, exposure, rfl⟩)))
    · contradiction
  | unregister p =>
    simp only [step, Option.ite_none_right_eq_some, Option.some.injEq] at move
    obtain ⟨⟨-, all⟩, rfl⟩ := move
    exact .inr (.inr (.inr (.inr ⟨p, _, .inl rfl, all, by simp, rfl⟩)))
  | free p =>
    simp only [step, Option.ite_none_right_eq_some, Option.some.injEq] at move
    obtain ⟨⟨-, all⟩, rfl⟩ := move
    refine .inr (.inr (.inr (.inr ⟨p, _, .inr rfl, fun q used => ?_, by simp, rfl⟩)))
    have gone := all q
    rw [used] at gone
    contradiction

namespace State

@[simp] theorem setPhase_self (s : State n) (p : Fin n) (new : Phase) : (s.setPhase p new).phase p = new :=
  Function.update_self ..

theorem setPhase_of_ne {q : Fin n} (other : q ≠ p) (new : Phase) :
    (s.setPhase p new).phase q = s.phase q :=
  Function.update_of_ne other _ _

/-- A process that has called `foMPI_Win_free` does not go back. -/
theorem setPhase_busy {new : Phase} (busy : new ≠ .inUse) {q : Fin n} (old : s.phase q ≠ .inUse) :
    (s.setPhase p new).phase q ≠ .inUse := by
  obtain rfl | other := eq_or_ne q p
  · rwa [setPhase_self]
  · rwa [setPhase_of_ne other]

end State

/-- What holds in every run. -/
structure Inv (s : State n) : Prop where
  pscw : Pscw.Inv s.pscw
  paired : s.issuers.length = s.lock.undelivered.length
  ended : ∀ p, s.phase p ≠ .inUse → s.pscw.exposure p = .closed
  gathered : ∀ p, (s.phase p).gone = true → ∀ q, s.phase q ≠ .inUse

namespace Inv

theorem init : Inv (init n) where
  pscw := Pscw.Inv.init
  paired := rfl
  ended _ busy := absurd rfl busy
  gathered _ gone := by contradiction

theorem enter (inv : Inv s) (exposure : s.pscw.exposure p = .closed) : Inv (s.setPhase p .entered) := by
  refine ⟨inv.pscw, inv.paired, fun q busy => ?_, fun q gone r => ?_⟩
  · obtain rfl | other := eq_or_ne q p
    · exact exposure
    · rw [State.setPhase_of_ne other] at busy
      exact inv.ended q busy
  · obtain rfl | other := eq_or_ne q p
    · rw [State.setPhase_self] at gone
      contradiction
    · rw [State.setPhase_of_ne other] at gone
      exact State.setPhase_busy (by simp) (inv.gathered q gone r)

theorem leave (inv : Inv s) (all : ∀ q, s.phase q ≠ .inUse) {new : Phase} (busy : new ≠ .inUse) :
    Inv (s.setPhase p new) :=
  ⟨inv.pscw, inv.paired, fun q _ => inv.ended q (all q), fun _ _ q => State.setPhase_busy busy (all q)⟩

theorem step (inv : Inv s) (move : step l s a = some t) : Inv t := by
  obtain ⟨b, u, -, used, moved, rfl⟩ | ⟨b, u, -, used, moved, rfl⟩ | ⟨p, -, -, rfl⟩ |
    ⟨p, -, exposure, rfl⟩ | ⟨p, new, -, all, busy, rfl⟩ := step_cases move
  · exact ⟨inv.pscw, issue_length inv.paired moved, inv.ended, inv.gathered⟩
  · refine ⟨inv.pscw.step moved, inv.paired, fun p busy => ?_, inv.gathered⟩
    rw [exposure_of_other (not_mem_of_usedBy used busy) moved]
    exact inv.ended p busy
  · exact inv
  · exact inv.enter exposure
  · exact inv.leave all busy

theorem reach {allow : State n → Action n → State n → Prop} (h : Reach (Free.step l) allow (Free.init n) s) :
    Inv s :=
  h.invariant init fun _ _ _ inv move _ => inv.step move

end Inv

/-- The increments of `foMPI_Win_post` and `foMPI_Win_complete` are delivered when a process
unregisters its memory, in every run. -/
theorem increments_landed (h : Reach (step l) always (init n) s) (gone : (s.phase p).gone = true) :
    s.pscw.inFlight = [] := by
  have inv := Inv.reach h
  exact landed_of_ended inv.pscw fun q => inv.ended q (inv.gathered p gone q)

/-- A process has nothing undelivered until its next operation on a lock. -/
theorem settled_step (settled : p ∉ s.issuers) (move : step l s a = some t) (other : a ≠ .lock (.run p)) :
    p ∉ t.issuers := by
  obtain ⟨b, u, rfl, -, -, rfl⟩ | ⟨b, u, -, -, -, rfl⟩ | ⟨q, -, -, rfl⟩ | ⟨q, -, -, rfl⟩ |
    ⟨q, new, -, -, -, rfl⟩ := step_cases move
  · exact not_mem_issue settled fun same => other (congrArg Action.lock same)
  · exact settled
  · exact settled
  · exact settled
  · exact settled

/-- What a `dmapp_gsync_wait` has waited for stays delivered until the process operates on a lock
again, so a call of `foMPI_Win_free` before that is orderly. -/
theorem settled_of_gsyncWait (wait : step l s (.gsyncWait p) = some t) {u : State n}
    (h : Reach (step l) (fun _ a _ => a ≠ .lock (.run p)) t u) : p ∉ u.issuers := by
  refine h.invariant (P := fun s => p ∉ s.issuers) ?_ fun s a t settled move other =>
    settled_step settled move other
  simp only [step, Option.ite_none_right_eq_some, Option.some.injEq] at wait
  obtain ⟨⟨-, settled⟩, rfl⟩ := wait
  exact settled

/-- Nothing that a process has issued is undelivered once it has called `foMPI_Win_free`. -/
def Settled (s : State n) : Prop := ∀ p, s.phase p ≠ .inUse → p ∉ s.issuers

theorem Settled.step (settled : Settled s) (move : step l s a = some t) (orderly : Orderly s a t) :
    Settled t := by
  intro p busy
  obtain ⟨b, u, rfl, used, -, rfl⟩ | ⟨b, u, -, -, -, rfl⟩ | ⟨q, -, -, rfl⟩ | ⟨q, rfl, -, rfl⟩ |
    ⟨q, new, -, all, -, rfl⟩ := step_cases move
  · refine not_mem_issue (settled p busy) fun runs => not_mem_of_usedBy used busy ?_
    rw [runs]
    rfl
  · exact settled p busy
  · exact settled p busy
  · obtain rfl | other := eq_or_ne p q
    · exact orderly
    · rw [State.setPhase_of_ne other] at busy
      exact settled p busy
  · exact settled p (all p)

/-- Behind the barrier of an orderly run no lock is still to be released. -/
theorem releases_landed (inv : Inv s) (settled : Settled s) (all : ∀ q, s.phase q ≠ .inUse) :
    s.lock.undelivered = [] := by
  have none : s.issuers = [] := List.eq_nil_iff_forall_not_mem.mpr fun q => settled q (all q)
  have paired := inv.paired
  rw [none] at paired
  exact List.eq_nil_of_length_eq_zero paired.symm

/-- No release hits a freed window in an orderly run. -/
theorem no_release_after_free (h : Reach (step l) Orderly (init n) s) : Safe s := by
  have inv := Inv.reach h
  have settled : Settled s :=
    h.invariant (fun _ busy => absurd rfl busy) fun _ _ _ settled move orderly => settled.step move orderly
  intro p gone
  have all := inv.gathered p gone
  have landed := increments_landed (h.mono fun _ _ _ _ => trivial) gone
  simp [State.Addressed, releases_landed inv settled all, landed]

/-- A process whose memory a release is still on its way to, when all have called `foMPI_Win_free`,
goes on and unregisters it. -/
theorem unregister_unsafe (all : ∀ q, s.phase q ≠ .inUse) (entered : s.phase p = .entered)
    (addressed : s.Addressed p) : ∃ t, step l s (.unregister p) = some t ∧ ¬Safe t := by
  refine ⟨s.setPhase p .unregistered, if_pos ⟨entered, all⟩, fun safe => ?_⟩
  have gone : ((s.setPhase p .unregistered).phase p).gone = true := by
    rw [State.setPhase_self]
    rfl
  exact safe p gone addressed

end Runs

section Example

/-- Two processes on different nodes. -/
def apart : Pscw.Layout (Fin 2) where
  window _ := ⟨true, -1, -1, []⟩
  rank p := p.val

def host : Fin 2 := ⟨0, Nat.zero_lt_two⟩

def guest : Fin 2 := ⟨1, Nat.one_lt_two⟩

/-- A shared lock on the host, and its release. -/
def visit : List (Action 2) :=
  [.lock (.winLock guest .shared host), .lock (.run guest), .lock (.winUnlock guest host),
    .lock (.run guest)]

/-- Nothing waits for the `-2` on `lock_mutex`. -/
theorem no_release_after_free_fails :
    ¬∀ (n : ℕ) (l : Pscw.Layout (Fin n)) (s : State n), Reach (step l) always (init n) s → Safe s := by
  intro claim
  have ran : (exec (step apart) (init 2) (visit ++ [.winFree host, .winFree guest, .unregister host])).map
      (fun s => (s.lock.undelivered, (s.phase host).gone)) = some ([(.lockMutex host, -2)], true) := by
    decide +kernel
  obtain ⟨s, run, trace⟩ := Option.map_eq_some_iff.mp ran
  obtain ⟨undelivered, gone⟩ := Prod.mk.inj trace
  refine claim 2 apart s (.of_exec _ run) host gone (.inl ⟨(.lockMutex host, -2), ?_, rfl⟩)
  rw [undelivered]
  exact List.mem_singleton_self _

def only (p : Fin 2) : Pscw.Group (Fin 2) := ⟨[p], List.nodup_singleton p, by simp⟩

/-- The host exposes its memory to one access epoch of the guest. -/
def handshake : List (Action 2) :=
  [.pscw (.post host (only guest)), .pscw (.expose host), .pscw (.expose host),
    .pscw (.start guest (only host)), .pscw (.expose host), .pscw (.deliver 0), .pscw (.access guest),
    .pscw (.access guest), .pscw (.complete guest), .pscw (.access guest), .pscw (.wait host),
    .pscw (.access guest), .pscw (.deliver 0), .pscw (.poll host .globalCounter),
    .pscw (.poll host .xpmemGlobalCounter)]

/-- The release is delivered after the host has called `foMPI_Win_free` and before the guest does. -/
theorem no_release_after_free_visit : ∃ s : State 2, Reach (step apart) Orderly (init 2) s ∧
    s.phase host = .freed ∧ s.phase guest = .unregistered ∧ Safe s := by
  have ran : (execWhen (step apart) (fun s a t => Orderly s a t) (init 2)
      (visit ++ handshake ++ [.winFree host, .lock (.deliver 0), .gsyncWait guest, .winFree guest,
        .unregister host, .unregister guest, .free host])).map
      (fun s => (s.phase host, s.phase guest)) = some (.freed, .unregistered) := by
    decide +kernel
  obtain ⟨s, run, trace⟩ := Option.map_eq_some_iff.mp ran
  obtain ⟨first, second⟩ := Prod.mk.inj trace
  have reach : Reach (step apart) Orderly (init 2) s :=
    Reach.of_execWhen (fun _ _ _ h => of_decide_eq_true h) _ run
  exact ⟨s, reach, first, second, no_release_after_free reach⟩

end Example

end FoMPI.Free
