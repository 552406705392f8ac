import FoMPI.Notif.Conservation

/-!
# A whole call

A call of `_foMPI_NotificationReceived_direct` that does not wait returns after
boundedly many operations, and what it has counted by then is a function of what
the queues held: every notification that the request can match, up to its count.
-/
namespace FoMPI.Notif
open FoMPI.Foundation FoMPI.Window

variable {w : Locality} {a : Args} {q : Queues} {f : Frame}

/-- Up to `n` operations of a call during which nothing arrives. -/
def operate (w : Locality) (a : Args) (wait : Bool) : ℕ → Queues → Frame → Queues × Frame
  | 0, q, f => (q, f)
  | n + 1, q, f =>
    let r := advance w a wait q f
    operate w a wait n r.1 r.2.1

/-- Operations that a call may still make: an event of a hardware queue costs two. -/
def budget (q : Queues) (f : Frame) : ℕ :=
  match f.pc with
  | .unexpected => q.uq.length + 2 * (q.onNode.length + q.cq.length) + 3
  | .xpmem => 2 * (q.onNode.length + q.cq.length) + 2
  | .ugni => 2 * (q.onNode.length + q.cq.length) + 1
  | .returned _ _ => 0

/-- Notifications in hardware queues that the call polls and the request accepts. -/
def Args.polled (a : Args) (w : Locality) (q : Queues) : ℕ :=
  (if pollsXpmem w a then q.onNode.countP a.accepts else 0) +
    (if pollsUgni w a then q.cq.countP a.accepts else 0)

/-- Notifications in the unexpected queue that the searches find before `size` is zero. -/
def Args.stored (a : Args) (uq : List Msg) : ℕ := min (uq.countP a.searches) (uqSize uq).toNat

/-- Notifications that the request can still match. -/
def available (w : Locality) (a : Args) (q : Queues) (f : Frame) : ℕ :=
  match f.pc with
  | .unexpected => a.stored q.uq + a.polled w q
  | .xpmem | .ugni => a.polled w q
  | .returned _ _ => 0

/-- The count that a request reaches which has counted `found` and can match `n` more. -/
def attain (count found : ℤ) (n : ℕ) : ℤ := if found < count then min count (found + n) else found

@[simp] theorem attain_zero (count found : ℤ) : attain count found 0 = found := by
  unfold attain
  split <;> omega

theorem attain_finished {count found : ℤ} (finished : ¬found < count) (n : ℕ) :
    attain count found n = found := if_neg finished

theorem attain_succ {count found : ℤ} (unfinished : found < count) (n : ℕ) :
    attain count (found + 1) n = attain count found (n + 1) := by
  unfold attain
  rw [if_pos unfinished]
  split <;> omega

theorem attain_eq_count {count found : ℤ} {n : ℕ} :
    count = attain count found n ↔ found ≤ count ∧ count ≤ found + n := by
  unfold attain
  split <;> omega

/-- The completion queue is polled by unfinished requests, after the on-node queue. -/
structure Polling (w : Locality) (a : Args) (q : Queues) (f : Frame) : Prop where
  unfinished : f.pc = .ugni → f.found < a.count
  remote : f.pc = .ugni → pollsUgni w a = true
  drained : f.pc = .ugni → pollsXpmem w a = true → q.onNode = []
  result : ∀ flag status, f.pc = .returned flag status →
    flag = decide (a.count = f.found) ∧ status = f.status a

theorem Polling.finish (w : Locality) (a : Args) (q : Queues) (f : Frame) :
    Polling w a q (f.finish a) where
  unfinished := by simp [Frame.finish]
  remote := by simp [Frame.finish]
  drained := by simp [Frame.finish]
  result := by
    intro flag status h
    cases h
    exact ⟨rfl, rfl⟩

theorem Polling.of_searching (h : f.pc = .unexpected ∨ f.pc = .xpmem) : Polling w a q f := by
  constructor <;> intros <;> simp_all

theorem dispatch_attain (uq : List Msg) (m : Msg) (unfinished : f.found < a.count) (n : ℕ) :
    attain a.count (dispatch a uq f m).2.1.found n =
      attain a.count f.found (n + if a.accepts m then 1 else 0) := by
  unfold dispatch
  split
  · exact attain_succ unfinished n
  · rfl

/-- An operation of a call that does not wait: the call is nearer to its end and can still reach the
same count. -/
structure Progress (w : Locality) (a : Args) (q : Queues) (f : Frame) (q' : Queues) (f' : Frame) : Prop where
  polling : Polling w a q' f'
  less : budget q' f' < budget q f
  same : attain a.count f'.found (available w a q' f') = attain a.count f.found (available w a q f)

/-- A call returns once all are counted, or nothing is left to match. -/
theorem Progress.finish (running : 0 < budget q f) (ended : f.found < a.count → available w a q f = 0) :
    Progress w a q f q (f.finish a) := by
  refine ⟨.finish w a q f, running, ?_⟩
  by_cases unfinished : f.found < a.count
  · rw [ended unfinished]
    rfl
  · rw [attain_finished unfinished]
    exact attain_finished unfinished _

theorem stored_of_none {uq : List Msg} (nothing : takeUnexpected a uq = none) : a.stored uq = 0 := by
  rw [takeUnexpected_search] at nothing
  split at nothing
  · rename_i zero
    simp [Args.stored, zero]
  · simp [Args.stored, removeFirst_countP_zero nothing]

theorem stored_of_some {uq uq' : List Msg} {m : Msg} (taken : takeUnexpected a uq = some (m, uq')) :
    a.stored uq' + 1 = a.stored uq := by
  have removed := removeFirst_of_takeUnexpected taken
  have count := removeFirst_countP removed
  have length := removeFirst_length removed
  rw [takeUnexpected_search] at taken
  have counted := (Option.ite_none_left_eq_some.mp taken).1
  rw [uqSize_eq_zero] at counted
  simp only [Args.stored, uqSize, BitVec.toNat_ofNat]
  omega

theorem Progress.unexpected (hpc : f.pc = .unexpected) :
    Progress w a q f (advance w a false q f).1 (advance w a false q f).2.1 := by
  by_cases unfinished : f.found < a.count
  · cases search : takeUnexpected a q.uq with
    | none =>
      have nothing := stored_of_none search
      simp only [advance, hpc, unfinished, search, if_true]
      refine ⟨.of_searching (.inr rfl), ?_, ?_⟩
      · simp only [budget, hpc]
        omega
      · simp only [available, hpc, nothing, Nat.zero_add]
    | some r =>
      obtain ⟨m, uq⟩ := r
      have count := stored_of_some search
      have length := removeFirst_length (removeFirst_of_takeUnexpected search)
      simp only [advance, hpc, unfinished, search, if_true]
      refine ⟨.of_searching (.inl rfl), ?_, ?_⟩
      · simp only [budget, hpc]
        omega
      · rw [attain_succ unfinished]
        simp only [available, hpc, Args.polled, ← count]
        congr 1
        omega
  · simp only [advance, hpc, unfinished, if_false]
    refine ⟨.of_searching (.inr rfl), ?_, ?_⟩
    · simp only [budget, hpc]
      omega
    · simp only [attain_finished unfinished]

theorem Progress.xpmem (hpc : f.pc = .xpmem) :
    Progress w a q f (advance w a false q f).1 (advance w a false q f).2.1 := by
  have running : 0 < budget q f := by simp [budget, hpc]
  by_cases unfinished : f.found < a.count
  · cases near : pollsXpmem w a with
    | true =>
      cases head : q.onNode with
      | cons m rest =>
        simp only [advance, hpc, unfinished, near, head, if_true]
        refine ⟨.of_searching (.inr (dispatch_pc _ _)), ?_, ?_⟩
        · simp only [budget, hpc, dispatch_pc, head, List.length_cons]
          omega
        · rw [dispatch_attain _ _ unfinished]
          simp only [available, hpc, dispatch_pc, Args.polled, head, near, if_true, List.countP_cons]
          congr 1
          omega
      | nil =>
        cases far : pollsUgni w a with
        | true =>
          simp only [advance, hpc, unfinished, near, head, far, if_true]
          refine ⟨⟨fun _ => unfinished, fun _ => far, fun _ _ => head, by simp⟩, ?_, ?_⟩
          · simp only [budget, hpc]
            omega
          · simp only [available, hpc]
        | false =>
          simp only [advance, hpc, unfinished, near, head, far, if_true, Bool.false_eq_true, if_false]
          apply Progress.finish running
          simp [available, hpc, Args.polled, head, far]
    | false =>
      have far : pollsUgni w a = true := by simp [pollsUgni, near]
      simp only [advance, hpc, unfinished, near, if_true, Bool.false_eq_true, if_false]
      refine ⟨⟨fun _ => unfinished, fun _ => far, by simp [near], by simp⟩, ?_, ?_⟩
      · simp only [budget, hpc]
        omega
      · simp only [available, hpc]
  · simp only [advance, hpc, unfinished, if_false]
    exact Progress.finish running fun h => absurd h unfinished

theorem Progress.ugni (hpc : f.pc = .ugni) (polling : Polling w a q f) :
    Progress w a q f (advance w a false q f).1 (advance w a false q f).2.1 := by
  have unfinished := polling.unfinished hpc
  have far := polling.remote hpc
  cases head : q.cq with
  | cons m rest =>
    simp only [advance, hpc, head]
    refine ⟨.of_searching (.inr (dispatch_pc _ _)), ?_, ?_⟩
    · simp only [budget, hpc, dispatch_pc, head, List.length_cons]
      omega
    · rw [dispatch_attain _ _ unfinished]
      simp only [available, hpc, dispatch_pc, Args.polled, head, far, if_true, List.countP_cons]
      congr 1
      omega
  | nil =>
    have empty := polling.drained hpc
    simp only [advance, hpc, head]
    apply Progress.finish (by simp [budget, hpc])
    intro _
    simp only [available, hpc, Args.polled, head, List.countP_nil, ite_self, Nat.add_zero]
    split
    · rename_i near
      rw [empty near, List.countP_nil]
    · rfl

/-- One operation of a call that does not wait. -/
theorem advance_receive (polling : Polling w a q f) (running : ∀ flag status, f.pc ≠ .returned flag status) :
    Progress w a q f (advance w a false q f).1 (advance w a false q f).2.1 := by
  cases hpc : f.pc with
  | unexpected => exact .unexpected hpc
  | xpmem => exact .xpmem hpc
  | ugni => exact .ugni hpc polling
  | returned flag status => exact absurd hpc (running flag status)

/-- A call that does not wait returns, having counted everything that the request can match. -/
theorem operate_receive (n : ℕ) (enough : budget q f ≤ n) (polling : Polling w a q f) :
    Polling w a (operate w a false n q f).1 (operate w a false n q f).2 ∧
      (∃ flag status, (operate w a false n q f).2.pc = .returned flag status) ∧
      (operate w a false n q f).2.found = attain a.count f.found (available w a q f) := by
  induction n generalizing q f with
  | zero =>
    cases hpc : f.pc with
    | unexpected | xpmem | ugni =>
      simp only [budget, hpc] at enough
      omega
    | returned flag status => exact ⟨polling, ⟨flag, status, hpc⟩, by simp [operate, available, hpc]⟩
  | succ n ih =>
    by_cases stopped : ∃ flag status, f.pc = .returned flag status
    · obtain ⟨flag, status, hpc⟩ := stopped
      have idle : advance w a false q f = (q, f, none) := by simp [advance, hpc]
      simp only [operate, idle]
      exact ih (by simp [budget, hpc]) polling
    · have progress := advance_receive polling fun flag status h => stopped ⟨flag, status, h⟩
      have less := progress.less
      rw [← progress.same]
      exact ih (by omega) progress.polling

/-- `_foMPI_NotificationReceived_direct` without waiting. -/
def receivedDirect (w : Locality) (a : Args) (q : Queues) (found : ℤ) : Queues × Frame :=
  operate w a false (budget q ⟨.unexpected, found, none⟩) q ⟨.unexpected, found, none⟩

/-- Notifications in the queues that a call on a request finds to match. -/
def matching (w : Locality) (a : Args) (q : Queues) : ℕ := a.stored q.uq + a.polled w q

theorem receivedDirect_found (w : Locality) (a : Args) (q : Queues) (found : ℤ) :
    (receivedDirect w a q found).2.found = attain a.count found (matching w a q) :=
  (operate_receive _ le_rfl (.of_searching (.inl rfl))).2.2

theorem receivedDirect_returns (w : Locality) (a : Args) (q : Queues) (found : ℤ) :
    (receivedDirect w a q found).2.pc =
      .returned (a.count = (receivedDirect w a q found).2.found) ((receivedDirect w a q found).2.status a) := by
  obtain ⟨polling, ⟨flag, status, pc⟩, -⟩ := operate_receive _ le_rfl
    (.of_searching (w := w) (a := a) (q := q) (f := ⟨.unexpected, found, none⟩) (.inl rfl))
  obtain ⟨rfl, rfl⟩ := polling.result flag status pc
  exact pc

end FoMPI.Notif
