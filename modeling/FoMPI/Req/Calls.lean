import FoMPI.Req.Model

/-!
# What the calls do to a handle

Readiness, completion and the counters of operations under way; then one lemma for
each of `foMPI_Test`, `foMPI_Wait` and `foMPI_Start`.
-/
namespace FoMPI.Req
open FoMPI.Window

variable {ω κ : Type*} [DecidableEq ω] [DecidableEq κ] {W : World ω κ} {h : Handle ω}

section Counters

/-- Operations under way are counted. -/
structure World.Counted (W : World ω κ) : Prop where
  dmapp : ∀ o ∈ W.dmapp, W.nbiCounter o.1 ≠ 0
  ugni : ∀ o ∈ W.ugni, W.counterUgniNbi o.1 ≠ 0

/-- No operation of the request is under way. -/
def World.completed (W : World ω κ) (r : Rma ω) : Prop :=
  (r.win, r.id) ∉ W.dmapp ∧ (W.fompiComm r.win, r.id) ∉ W.ugni

instance (W : World ω κ) (r : Rma ω) : Decidable (W.completed r) :=
  inferInstanceAs (Decidable (_ ∧ _))

/-- What `foMPI_Rma_test_wait` needs to report completion. -/
def World.ready (W : World ω κ) (r : Rma ω) : Bool :=
  W.counterUgniNbi (W.fompiComm r.win) = 0 ∧ (W.nbiCounter r.win = 0 ∨ W.dmapp = [])

omit [DecidableEq ω] [DecidableEq κ] in
theorem World.Counted.completed (counted : W.Counted) {r : Rma ω} (ready : W.ready r = true) :
    W.completed r := by
  simp only [World.ready, decide_eq_true_eq] at ready
  obtain ⟨ugni, dmapp⟩ := ready
  constructor
  · intro pending
    obtain zero | empty := dmapp
    · exact counted.dmapp _ pending zero
    · simp [empty] at pending
  · intro pending
    exact counted.ugni _ pending ugni

/-- `Later W W'`: the second world has no operation that the first has not. -/
structure World.Later (W W' : World ω κ) : Prop where
  dmapp : ∀ o ∈ W'.dmapp, o ∈ W.dmapp
  ugni : ∀ o ∈ W'.ugni, o ∈ W.ugni
  nbiCounter : ∀ win, W'.nbiCounter win = W.nbiCounter win ∨ W'.dmapp = []
  counterUgniNbi : ∀ comm, W'.counterUgniNbi comm = W.counterUgniNbi comm ∨ ∀ o ∈ W'.ugni, o.1 ≠ comm
  fompiComm : W'.fompiComm = W.fompiComm

namespace World.Later

omit [DecidableEq ω] [DecidableEq κ] in
theorem refl (W : World ω κ) : W.Later W :=
  ⟨fun _ h => h, fun _ h => h, fun _ => .inl rfl, fun _ => .inl rfl, rfl⟩

omit [DecidableEq ω] [DecidableEq κ] in
theorem trans {W' W'' : World ω κ} (first : W.Later W') (second : W'.Later W'') : W.Later W'' where
  dmapp o ho := first.dmapp o (second.dmapp o ho)
  ugni o ho := first.ugni o (second.ugni o ho)
  nbiCounter win := by
    obtain same | empty := second.nbiCounter win
    · obtain same' | empty := first.nbiCounter win
      · exact .inl (same.trans same')
      · right
        apply List.eq_nil_iff_forall_not_mem.mpr
        intro o ho
        simpa [empty] using second.dmapp o ho
    · exact .inr empty
  counterUgniNbi comm := by
    obtain same | none := second.counterUgniNbi comm
    · obtain same' | none := first.counterUgniNbi comm
      · exact .inl (same.trans same')
      · exact .inr fun o ho => none o (second.ugni o ho)
    · exact .inr none
  fompiComm := second.fompiComm.trans first.fompiComm

omit [DecidableEq ω] [DecidableEq κ] in
theorem counted {W' : World ω κ} (later : W.Later W') (counted : W.Counted) : W'.Counted where
  dmapp o ho := by
    obtain same | empty := later.nbiCounter o.1
    · exact same ▸ counted.dmapp o (later.dmapp o ho)
    · simp [empty] at ho
  ugni o ho := by
    obtain same | none := later.counterUgniNbi o.1
    · exact same ▸ counted.ugni o (later.ugni o ho)
    · exact absurd rfl (none o ho)

omit [DecidableEq ω] [DecidableEq κ] in
theorem completed {W' : World ω κ} (later : W.Later W') {r : Rma ω} (done : W.completed r) :
    W'.completed r :=
  ⟨fun pending => done.1 (later.dmapp _ pending),
    fun pending => done.2 (later.fompiComm ▸ later.ugni _ pending)⟩

omit [DecidableEq ω] [DecidableEq κ] in
theorem of_queues (W : World ω κ) (q : ω → Notif.Queues) (script : List (List (Event ω))) :
    W.Later { W with queues := q, script := script } :=
  ⟨fun _ h => h, fun _ h => h, fun _ => .inl rfl, fun _ => .inl rfl, rfl⟩

omit [DecidableEq κ] in
theorem event (W : World ω κ) (e : Event ω) : W.Later (W.event e) := by
  cases e with
  | arriveXpmem win m => exact of_queues W _ _
  | arriveUgni win m => exact of_queues W _ _
  | dmappDone i => exact ⟨fun _ h => List.mem_of_mem_eraseIdx h, fun _ h => h, fun _ => .inl rfl, fun _ => .inl rfl, rfl⟩
  | ugniDone i => exact ⟨fun _ h => h, fun _ h => List.mem_of_mem_eraseIdx h, fun _ => .inl rfl, fun _ => .inl rfl, rfl⟩

omit [DecidableEq κ] in
theorem events (W : World ω κ) (batch : List (Event ω)) : W.Later (W.events batch) := by
  induction batch generalizing W with
  | nil => exact .refl W
  | cons e batch ih => exact (event W e).trans (ih (W.event e))

omit [DecidableEq κ] in
theorem tick (W : World ω κ) : W.Later W.tick := by
  unfold World.tick
  split
  · exact .refl W
  · exact (events W _).trans (of_queues _ _ _)

omit [DecidableEq ω] in
theorem commFlushAll (W : World ω κ) (comm : κ) : W.Later (W.commFlushAll comm) := by
  unfold World.commFlushAll
  split
  · refine ⟨fun _ h => h, fun _ h => List.mem_of_mem_filter h, fun _ => .inl rfl, fun c => ?_, rfl⟩
    by_cases same : c = comm
    · right
      intro o ho
      simpa [same] using List.of_mem_filter ho
    · exact .inl (Function.update_of_ne same _ _)
  · exact .refl W

theorem flushAll (W : World ω κ) (win : ω) : W.Later (W.flushAll win) := by
  have first := commFlushAll W (W.fompiComm win)
  simp only [World.flushAll]
  split
  · exact first.trans ⟨by simp [World.gsyncWait], fun _ h => h, fun _ => .inr rfl, fun _ => .inl rfl, rfl⟩
  · exact first

end World.Later

/-- A flush completes the operations of the window that are counted. -/
theorem World.Counted.flushed (counted : W.Counted) (r : Rma ω) : (W.flushAll r.win).completed r := by
  apply ((World.Later.flushAll W r.win).counted counted).completed
  have ugni : (W.commFlushAll (W.fompiComm r.win)).counterUgniNbi (W.fompiComm r.win) = 0 := by
    unfold World.commFlushAll
    split
    · exact Function.update_self _ _ _
    · omega
  have comm := (World.Later.flushAll W r.win).fompiComm
  rw [World.ready, comm, decide_eq_true_eq]
  simp only [World.flushAll]
  split
  · exact ⟨ugni, .inr rfl⟩
  · rename_i none
    refine ⟨ugni, .inl ?_⟩
    simpa [BitVec.pos_iff_ne_zero] using none

end Counters

section Handles

/-- Notifications for the request that are in the queues of its window. -/
def Notification.matching (W : World ω κ) (n : Notification ω) : ℕ :=
  Notif.matching (W.locality n.win) n.args (W.queues n.win)

/-- A test of the handle would find its operation complete. -/
def ready (W : World ω κ) : Handle ω → Bool
  | none => false
  | some (.rma r) => W.ready r
  | some (.notification n) => n.found ≤ n.args.count ∧ n.args.count ≤ n.found + n.matching W

/-- The operation of the handle `h` is complete; a notification request that was at `h` is at `h'`
and has counted all that it was made for. -/
def Complete (W : World ω κ) (h h' : Handle ω) : Prop :=
  match h with
  | none => False
  | some (.rma r) => W.completed r
  | some (.notification n) =>
    ∃ n', h' = some (.notification n') ∧ n'.args = n.args ∧ n'.found = n.args.count

def persistent : Handle ω → Bool
  | some (.notification _) => true
  | _ => false

/-- The handle denotes the same request, apart from what a notification request has counted. -/
def Kept (h h' : Handle ω) : Prop :=
  h' = h ∨ ∃ n found, h = some (.notification n) ∧ h' = some (.notification { n with found := found })

omit [DecidableEq ω] in
theorem Kept.trans {h' h'' : Handle ω} (first : Kept h h') (second : Kept h' h'') : Kept h h'' := by
  obtain rfl | ⟨n, found, rfl, rfl⟩ := first
  · exact second
  · obtain rfl | ⟨m, found', eq, rfl⟩ := second
    · exact .inr ⟨n, found, rfl, rfl⟩
    · cases eq
      exact .inr ⟨n, found', rfl, rfl⟩

omit [DecidableEq ω] in
theorem Kept.idle {h' : Handle ω} (kept : Kept h h') : idle h' = idle h := by
  obtain rfl | ⟨n, found, rfl, rfl⟩ := kept <;> rfl

omit [DecidableEq ω] in
theorem Kept.persistent {h' : Handle ω} (kept : Kept h h') : persistent h' = persistent h := by
  obtain rfl | ⟨n, found, rfl, rfl⟩ := kept <;> rfl

omit [DecidableEq ω] in
theorem Kept.isSome {h' : Handle ω} (kept : Kept h h') : h'.isSome = h.isSome := by
  obtain rfl | ⟨n, found, rfl, rfl⟩ := kept <;> rfl

theorem test_idle (is_idle : idle h = true) : test W h = ⟨true, .empty, h, W⟩ := by
  cases h with
  | none => rfl
  | some r => simp [test, testWait, is_idle]

theorem test_active {r : Request ω} (active : idle (some r) = false) :
    test W (some r) = settle (r.testFun W).1 (r.testFun W).2 := by
  simp [test, testWait, active]

/-- A test of a request that is not persistent frees it in any case. -/
theorem test_rma (W : World ω κ) (r : Rma ω) :
    (test W (some (.rma r))).flag = W.ready r ∧ (test W (some (.rma r))).handle = none ∧
      (test W (some (.rma r))).world = W := by
  rw [test_active rfl]
  simp only [Request.testFun, rmaTestWait, World.ready, settle, Bool.false_eq_true, if_false]
  split
  · rename_i sync
    simp [sync.1, sync.2]
  · rename_i unsync
    refine ⟨?_, rfl, rfl⟩
    split
    · rename_i busy
      simp [Nat.pos_iff_ne_zero.mp busy]
    · rename_i quiet
      have none : W.counterUgniNbi (W.fompiComm r.win) = 0 := by omega
      have counted : W.nbiCounter r.win ≠ 0#32 := fun zero => unsync ⟨zero, none⟩
      cases W.dmapp <;> simp [none, counted]

/-- A test of an active persistent request keeps it, and deactivates it if it is complete. -/
theorem test_notification (W : World ω κ) (n : Notification ω) (active : n.active = true) :
    (test W (some (.notification n))).flag = ready W (some (.notification n)) ∧
      (∃ q, (test W (some (.notification n))).world = { W with queues := q }) ∧
      ∃ found, (test W (some (.notification n))).handle =
          some (.notification { n with found := found, active := !ready W (some (.notification n)) }) ∧
        (ready W (some (.notification n)) = true ↔ n.args.count = found) := by
  have found := Notif.receivedDirect_found (W.locality n.win) n.args (W.queues n.win) n.found
  have flag : (decide (n.args.count =
      (Notif.receivedDirect (W.locality n.win) n.args (W.queues n.win) n.found).2.found)) =
        ready W (some (.notification n)) := by
    simp only [ready, Notification.matching, found]
    exact decide_eq_decide.mpr Notif.attain_eq_count
  rw [test_active (by simp [idle, active])]
  simp only [Request.testFun, notificationTest, settle, Notification.reply, flag]
  refine ⟨trivial, ⟨_, rfl⟩, _, ?_, by rw [← flag, decide_eq_true_eq]⟩
  cases ready W (some (.notification n))
  · simp [active]
  · rfl

theorem test_flag (active : idle h = false) : (test W h).flag = ready W h := by
  cases h with
  | none => contradiction
  | some r =>
    cases r with
    | rma r => exact (test_rma W r).1
    | notification n => exact (test_notification W n (by simpa [idle] using active)).1

theorem test_world (W : World ω κ) (h : Handle ω) : ∃ q, (test W h).world = { W with queues := q } := by
  cases is_idle : idle h with
  | true => exact ⟨W.queues, by rw [test_idle is_idle]⟩
  | false =>
    cases h with
    | none => contradiction
    | some r =>
      cases r with
      | rma r => exact ⟨W.queues, (test_rma W r).2.2⟩
      | notification n => exact (test_notification W n (by simpa [idle] using is_idle)).2.1

theorem World.Later.test (W : World ω κ) (h : Handle ω) : W.Later (test W h).world := by
  obtain ⟨q, eq⟩ := test_world W h
  rw [eq]
  exact .of_queues W q W.script

/-- A test that reports completion ends an active request. -/
theorem test_ready (active : idle h = false) (is_ready : ready W h = true) :
    idle (test W h).handle = true ∧ persistent (test W h).handle = persistent h ∧
      (W.Counted → Complete (test W h).world h (test W h).handle) := by
  cases h with
  | none => contradiction
  | some r =>
    cases r with
    | rma r =>
      obtain ⟨-, handle, world⟩ := test_rma W r
      rw [handle, world]
      exact ⟨rfl, rfl, fun counted => counted.completed is_ready⟩
    | notification n =>
      obtain ⟨-, -, found, handle, count⟩ := test_notification W n (by simpa [idle] using active)
      rw [handle, is_ready]
      exact ⟨rfl, rfl, fun _ => ⟨_, rfl, rfl, (count.mp is_ready).symm⟩⟩

/-- A test that does not report completion keeps persistent requests only; restarting one that is
active changes nothing that matters. -/
theorem test_not_ready (active : idle h = false) (not_ready : ready W h = false) :
    (test W h).handle = (start (test W h).handle).1 ∧
      (persistent h = false ∧ (test W h).handle = none ∨
        persistent h = true ∧ Kept h (test W h).handle) := by
  cases h with
  | none => contradiction
  | some r =>
    cases r with
    | rma r =>
      obtain ⟨-, handle, -⟩ := test_rma W r
      rw [handle]
      exact ⟨rfl, .inl ⟨rfl, rfl⟩⟩
    | notification n =>
      have is_active : n.active = true := by simpa [idle] using active
      obtain ⟨-, -, found, handle, count⟩ := test_notification W n is_active
      rw [handle, not_ready]
      have short : found ≠ n.args.count := fun h => by simpa [not_ready] using count.mpr h.symm
      refine ⟨by simp [start, Notif.activate, short], .inr ⟨rfl, .inr ⟨n, found, rfl, ?_⟩⟩⟩
      simp [is_active]

end Handles

end FoMPI.Req
