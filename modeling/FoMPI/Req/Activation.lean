import FoMPI.Req.Survival

/-!
# Activations of a persistent request

Every completion that is reported for a persistent request ends its activation,
except the one of `foMPI_Wait`. In runs without that call on the active request the
starts that found it inactive are the completions and the present activation.
-/
namespace FoMPI.Req
open FoMPI.Foundation

variable {ω κ : Type*} [DecidableEq ω] [DecidableEq κ]
variable {s t : State ω κ} {a : Action ω} {k : ℕ} {n : Notification ω}

section Reports

omit [DecidableEq ω] [DecidableEq κ] in
theorem State.report_completions (s : State ω κ) (j k : ℕ) : (s.report j).completions k =
    s.completions k + if j = k ∧ idle (s.mem k) = false then 1 else 0 := by
  obtain rfl | other := eq_or_ne j k
  · cases is_idle : idle (s.mem j) <;> simp [State.report, is_idle]
  · cases is_idle : idle (s.mem j) <;> simp [State.report, is_idle, other, Function.update_of_ne other.symm]

omit [DecidableEq ω] [DecidableEq κ] in
theorem State.reportIndex_completions (s : State ω κ) (base : ℕ) (index : Option ℕ) (k : ℕ) :
    (s.reportIndex base index).completions k =
      s.completions k + if (∃ i, index = some i ∧ base + i = k) ∧ idle (s.mem k) = false then 1 else 0 := by
  cases index with
  | none => simp [State.reportIndex]
  | some i => simp [State.reportIndex, State.report_completions]

omit [DecidableEq ω] [DecidableEq κ] in
@[simp] theorem State.report_starts (s : State ω κ) (j : ℕ) : (s.report j).starts = s.starts := rfl

omit [DecidableEq ω] [DecidableEq κ] in
@[simp] theorem State.reportIndex_starts (s : State ω κ) (base : ℕ) (index : Option ℕ) :
    (s.reportIndex base index).starts = s.starts := by
  cases index <;> rfl

end Reports

/-- Whether the handle denotes an active persistent request. -/
def activations : Handle ω → ℕ
  | some (.notification n) => if n.active then 1 else 0
  | _ => 0

omit [DecidableEq ω] in
theorem activations_of_kept {h h' : Handle ω} (kept : Kept h h') : activations h' = activations h := by
  obtain rfl | ⟨n, found, rfl, rfl⟩ := kept <;> rfl

omit [DecidableEq ω] in
theorem activations_of_idle {h : Handle ω} (is_idle : idle h = true) : activations h = 0 := by
  cases h with
  | none => rfl
  | some r =>
    cases r with
    | rma r => rfl
    | notification n => simp_all [idle, activations]

omit [DecidableEq ω] in
theorem activations_of_active {h : Handle ω} (type : persistent h = true) (active : idle h = false) :
    activations h = 1 := by
  cases h with
  | none => contradiction
  | some r =>
    cases r with
    | rma r => contradiction
    | notification n => simp_all [idle, activations]

/-- What a step does to a persistent request at `k`, if one is there afterwards. -/
inductive Change (s t : State ω κ) (a : Action ω) (k : ℕ) : Prop
  | made (starts : t.starts k = 0) (completions : t.completions k = 0) (ended : idle (t.mem k) = true)
  | kept (starts : t.starts k = s.starts k) (completions : t.completions k = s.completions k)
      (same : activations (t.mem k) = activations (s.mem k)) (type : persistent (s.mem k) = true)
  | started (starts : t.starts k = s.starts k + 1) (completions : t.completions k = s.completions k)
      (type : persistent (s.mem k) = true) (idle : idle (s.mem k) = true)
      (active : activations (t.mem k) = 1)
  | completed (starts : t.starts k = s.starts k) (completions : t.completions k = s.completions k + 1)
      (type : persistent (s.mem k) = true) (active : idle (s.mem k) = false) (other : a ≠ .wait k)
      (ended : idle (t.mem k) = true)
  | waited (starts : t.starts k = s.starts k) (completions : t.completions k = s.completions k + 1)
      (type : persistent (s.mem k) = true) (active : idle (s.mem k) = false) (wait : a = .wait k)
      (stays : idle (t.mem k) = false)

omit [DecidableEq ω] [DecidableEq κ] in
theorem Change.same (starts : t.starts k = s.starts k) (completions : t.completions k = s.completions k)
    (mem : t.mem k = s.mem k) (type : persistent (t.mem k) = true) : Change s t a k :=
  .kept starts completions (by rw [mem]) (mem ▸ type)

omit [DecidableEq ω] [DecidableEq κ] in
/-- A pass over an array, or several. -/
theorem Change.scanned {base : ℕ} {r : Scan ω κ} (returned : Returned base s.mem s.world r)
    (eq : t = { s.reportIndex base r.index with mem := r.mem, world := r.world })
    (type : persistent (t.mem k) = true) (other : a ≠ .wait k) : Change s t a k := by
  cases eq
  by_cases hit : ∃ i, r.index = some i ∧ base + i = k
  · obtain ⟨i, hi, rfl⟩ := hit
    obtain ⟨active, ended, same⟩ := returned.hit i hi
    refine .completed (by simp) ?_ (same ▸ type) active other ended
    simp [State.reportIndex_completions, hi, active]
  · obtain kept | ⟨-, -, gone⟩ := returned.other k fun i hi eq => hit ⟨i, hi, eq.symm⟩
    · refine .kept (by simp) ?_ (activations_of_kept kept) (kept.persistent ▸ type)
      simp [State.reportIndex_completions, hit]
    · simp [gone, persistent] at type

theorem start_change {j : ℕ} (move : step s (.start j) = some t) (type : persistent (t.mem k) = true) :
    Change s t (.start j) k := by
  cases move
  dsimp only at type
  obtain rfl | other := eq_or_ne k j
  · rw [Function.update_self] at type
    have held : persistent (s.mem k) = true := by
      revert type
      cases s.mem k with
      | none => exact id
      | some r => cases r <;> exact id
    have active : activations (start (s.mem k)).1 = 1 := by
      revert held
      cases s.mem k with
      | none => simp [persistent]
      | some r => cases r <;> simp [persistent, start, activations]
    cases is_idle : idle (s.mem k) with
    | true => exact .started (by simp) rfl held is_idle (by simpa using active)
    | false =>
      refine .kept (by simp) rfl ?_ held
      simpa [activations_of_active held is_idle] using active
  · refine .same ?_ rfl (Function.update_of_ne other _ _) (by simpa using type)
    dsimp only
    split
    · exact Function.update_of_ne other _ _
    · rfl

theorem test_change {j : ℕ} (move : step s (.test j) = some t) (type : persistent (t.mem k) = true) :
    Change s t (.test j) k := by
  cases move
  dsimp only at type
  obtain rfl | other := eq_or_ne k j
  · rw [Function.update_self] at type
    cases is_idle : idle (s.mem k) with
    | true =>
      simp only [test_idle is_idle] at type ⊢
      refine .same ?_ ?_ (Function.update_self _ _ _) (by simpa using type)
      · rfl
      · simp [State.report_completions, is_idle]
    | false =>
      cases is_ready : ready s.world (s.mem k) with
      | true =>
        obtain ⟨ended, same, -⟩ := test_ready is_idle is_ready
        refine .completed ?_ ?_ (same ▸ type) is_idle (by simp) (by simpa using ended)
        · simp [test_flag is_idle, is_ready]
        · simp [test_flag is_idle, is_ready, State.report_completions, is_idle]
      | false =>
        obtain ⟨-, ⟨-, gone⟩ | ⟨held, kept⟩⟩ := test_not_ready is_idle is_ready
        · simp [gone, persistent] at type
        · refine .kept ?_ ?_ (by simpa using activations_of_kept kept) held
          · simp [test_flag is_idle, is_ready]
          · simp [test_flag is_idle, is_ready]
  · refine .same ?_ ?_ (Function.update_of_ne other _ _) (by simpa [other] using type)
    · dsimp only
      split <;> rfl
    · dsimp only
      split
      · simp [State.report_completions, other.symm]
      · rfl

/-- `foMPI_Wait` on an active request reports a completion and leaves it active. -/
theorem wait_change {j : ℕ} (move : step s (.wait j) = some t) (type : persistent (t.mem k) = true) :
    Change s t (.wait j) k := by
  simp only [step] at move
  split at move
  · contradiction
  · rename_i o returns
    cases move
    dsimp only at type
    obtain rfl | other := eq_or_ne k j
    · rw [Function.update_self] at type
      cases is_idle : idle (s.mem k) with
      | true =>
        rw [wait_idle is_idle] at returns
        cases returns
        exact .same rfl (by simp [State.report_completions, is_idle]) (Function.update_self _ _ _)
          (by simpa using type)
      | false =>
        obtain ⟨-, gone | kept⟩ := wait_spec returns
        · simp [gone, persistent] at type
        · refine .waited rfl ?_ (kept.persistent ▸ type) is_idle rfl ?_
          · simp [State.report_completions, is_idle]
          · simpa using kept.idle.trans is_idle
    · exact .same rfl (by simp [State.report_completions, other.symm]) (Function.update_of_ne other _ _)
        (by simpa [other] using type)

/-- What each call does to a persistent request. -/
theorem step_change (move : step s a = some t) (type : persistent (t.mem k) = true) : Change s t a k := by
  cases a with
  | rma j win elements source dmapp ugni =>
    cases move
    obtain rfl | other := eq_or_ne k j
    · simp [persistent] at type
    · exact .same rfl rfl (Function.update_of_ne other _ _) type
  | notifyInit j win args =>
    cases move
    obtain rfl | other := eq_or_ne k j
    · exact .made (by simp) (by simp) (by simp [idle])
    · exact .same (by simp [other]) (by simp [other]) (Function.update_of_ne other _ _) type
  | requestFree j =>
    cases move
    obtain rfl | other := eq_or_ne k j
    · simp [persistent, requestFree] at type
    · exact .same rfl rfl (Function.update_of_ne other _ _) type
  | start j => exact start_change move type
  | test j => exact test_change move type
  | wait j => exact wait_change move type
  | testany base count rand =>
    obtain ⟨r, returns, eq⟩ := State.scanned_eq_some move
    exact .scanned (testany_scanned returns).returned eq type (by simp)
  | waitany base count rand rands =>
    obtain ⟨r, returns, eq⟩ := State.scanned_eq_some move
    exact .scanned (waitany_returned returns) eq type (by simp)
  | flushAll win | network e | schedule script =>
    cases move
    exact .same rfl rfl rfl type

section Types

theorem test_type (W : World ω κ) (h : Handle ω) : persistent (test W h).handle = persistent h := by
  cases is_idle : idle h with
  | true => rw [test_idle is_idle]
  | false =>
    cases is_ready : ready W h with
    | true => exact (test_ready is_idle is_ready).2.1
    | false =>
      obtain ⟨-, ⟨transient, gone⟩ | ⟨-, kept⟩⟩ := test_not_ready is_idle is_ready
      · rw [gone, transient]
        rfl
      · exact kept.persistent

theorem wait_type {W : World ω κ} {h : Handle ω} {o : Outcome ω κ} (returns : wait W h = .ok o) :
    persistent o.handle = persistent h := by
  cases is_idle : idle h with
  | true =>
    rw [wait_idle is_idle] at returns
    cases returns
    rfl
  | false =>
    cases h with
    | none => contradiction
    | some r =>
      cases r with
      | rma r =>
        obtain ⟨o', eq, handle, -⟩ := wait_rma W r
        rw [eq] at returns
        cases returns
        rw [handle]
        rfl
      | notification n =>
        obtain ⟨-, found, handle⟩ := wait_notification (by simpa [idle] using is_idle) returns
        rw [handle]
        rfl

omit [DecidableEq ω] [DecidableEq κ] in
theorem Returned.type {base : ℕ} {mem : Memory ω} {W : World ω κ} {r : Scan ω κ}
    (h : Returned base mem W r) (k : ℕ) : persistent (r.mem k) = persistent (mem k) := by
  by_cases hit : ∃ i, r.index = some i ∧ base + i = k
  · obtain ⟨i, hi, rfl⟩ := hit
    exact (h.hit i hi).2.2
  · obtain kept | ⟨-, transient, gone⟩ := h.other k fun i hi eq => hit ⟨i, hi, eq.symm⟩
    · exact kept.persistent
    · rw [gone, transient]
      rfl

/-- A step that reports a completion keeps the type of the request. -/
theorem step_type (move : step s a = some t) (reported : t.completions k = s.completions k + 1) :
    persistent (t.mem k) = persistent (s.mem k) := by
  cases a with
  | rma j win elements source dmapp ugni | requestFree j | start j | flushAll win | network e | schedule script =>
    cases move
    simp at reported
  | notifyInit j win args =>
    cases move
    obtain rfl | other := eq_or_ne k j
    · simp at reported
    · simp [other] at reported
  | test j =>
    cases move
    dsimp only
    obtain rfl | other := eq_or_ne k j
    · rw [Function.update_self, test_type]
    · rw [Function.update_of_ne other]
  | wait j =>
    simp only [step] at move
    split at move
    · contradiction
    · rename_i o returns
      cases move
      dsimp only
      obtain rfl | other := eq_or_ne k j
      · rw [Function.update_self, wait_type returns]
      · rw [Function.update_of_ne other]
  | testany base count rand =>
    obtain ⟨r, returns, rfl⟩ := State.scanned_eq_some move
    exact (testany_scanned returns).returned.type k
  | waitany base count rand rands =>
    obtain ⟨r, returns, rfl⟩ := State.scanned_eq_some move
    exact (waitany_returned returns).type k

end Types

/-- No call of `foMPI_Wait` on the active request at `k`. -/
def NoWait (k : ℕ) (s : State ω κ) (a : Action ω) : Prop := a = .wait k → idle (s.mem k) = true

/-- The starts that found the request at `k` inactive, and what became of them. -/
def Balance (k : ℕ) (s : State ω κ) : Prop :=
  persistent (s.mem k) = true → s.starts k = s.completions k + activations (s.mem k)

theorem Balance.step (balance : Balance k s) (move : step s a = some t) (quiet : NoWait k s a) :
    Balance k t := by
  intro type
  cases step_change move type with
  | made starts completions ended => rw [starts, completions, activations_of_idle ended]
  | kept starts completions same type => rw [starts, completions, same, balance type]
  | started starts completions type idle active =>
    rw [starts, completions, active, balance type, activations_of_idle idle]
  | completed starts completions type active other ended =>
    rw [starts, completions, balance type, activations_of_idle ended, activations_of_active type active]
  | waited starts completions type active wait stays => simp [quiet wait] at active

/-- A completion of a persistent request leaves it inactive unless `foMPI_Wait` reports it; without
such calls completions do not outnumber the starts that found the request inactive. -/
theorem completion_per_activation :
    (∀ (s t : State ω κ) (a : Action ω) (k : ℕ), step s a = some t → persistent (s.mem k) = true →
      t.completions k = s.completions k + 1 → (idle (t.mem k) = true ↔ a ≠ .wait k)) ∧
    ∀ (W : World ω κ) (k : ℕ) (s : State ω κ), Reach step (fun s a _ => NoWait k s a) (init W) s →
      persistent (s.mem k) = true → s.completions k ≤ s.starts k := by
  constructor
  · intro s t a k move type reported
    cases step_change move ((step_type move reported).trans type) with
    | made starts completions ended => omega
    | kept starts completions same type => omega
    | started starts completions type idle active => omega
    | completed starts completions type active other ended => simp [ended, other]
    | waited starts completions type active wait stays => simp [stays, wait]
  · intro W k s run type
    have balance : Balance k s := by
      apply run.invariant
      · intro type
        simp [init, persistent] at type
      · intro s a t balance move quiet
        exact balance.step move quiet
    have := balance type
    omega

section Example

/-- A notification request that is started, and the notification it is made for. -/
def started : List (Action Unit) :=
  [.notifyInit 0 () ⟨Notif.anySource, 7, 1⟩, .start 0, .network (.arriveUgni () ⟨0, 3, 7⟩)]

def isWait : Action Unit → Bool
  | .wait _ => true
  | _ => false

/-- A test reports the completion and ends the activation. -/
theorem completion_per_activation_test : ∃ s t : State Unit Unit,
    exec step (init quiet) started = some s ∧ step s (.test 0) = some t ∧ idle (t.mem 0) = true ∧
      t.completions 0 = 1 ∧ t.completions 0 ≤ t.starts 0 := by
  have sound (s : State Unit Unit) (a : Action Unit) (_ : State Unit Unit) (other : (!isWait a) = true) :
      NoWait 0 s a := by
    rintro rfl
    contradiction
  have run := Reach.of_execWhen sound (started ++ [.test 0])
    (show execWhen step _ (init quiet) _ = some _ from rfl)
  exact ⟨_, _, rfl, rfl, (completion_per_activation.1 _ _ (.test 0) 0 rfl rfl rfl).mpr nofun, rfl,
    completion_per_activation.2 quiet 0 _ run rfl⟩

/-- `foMPI_Wait` reports the same completion twice. -/
theorem completion_per_activation_fails :
    ¬ ∀ s : State Unit Unit, Reach step always (init quiet) s → ∀ k,
      persistent (s.mem k) = true → s.completions k ≤ s.starts k := by
  intro claim
  have run : Reach step always (init quiet) _ := .of_exec (started ++ [.wait 0, .wait 0]) rfl
  exact absurd (claim _ run 0 rfl) (by decide)

end Example

end FoMPI.Req
