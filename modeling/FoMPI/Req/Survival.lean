import FoMPI.Req.Run

/-!
# Incomplete requests and tests

A test keeps an incomplete request exactly if it is persistent. In runs without a
test of an incomplete request that is not, the handle of every operation stays
until its completion is reported, and the report is true.
-/
namespace FoMPI.Req
open FoMPI.Foundation

variable {ω κ : Type*} [DecidableEq ω] [DecidableEq κ] {W : World ω κ} {h : Handle ω}

/-- A test with `flag = 0` keeps null and persistent requests, and none that it finds incomplete
otherwise. -/
theorem test_keeps_iff (W : World ω κ) (h : Handle ω) :
    ((test W h).flag = false → Kept h (test W h).handle) ↔
      h = none ∨ persistent h = true ∨ ready W h = true := by
  cases is_idle : idle h with
  | true =>
    rw [test_idle is_idle]
    cases h with
    | none => simp
    | some r =>
      cases r with
      | rma r => contradiction
      | notification n => simp [persistent]
  | false =>
    rw [test_flag is_idle]
    cases is_ready : ready W h with
    | true => simp
    | false =>
      obtain ⟨-, ⟨transient, gone⟩ | ⟨stays, kept⟩⟩ := test_not_ready is_idle is_ready
      · rw [gone, transient]
        constructor
        · intro keeps
          exact .inl (by simpa using (keeps rfl).isSome)
        · rintro (rfl | type | type)
          · contradiction
          · contradiction
          · contradiction
      · simp [stays, kept]

/-- The same for an element of an array, if the call does not overflow. -/
theorem testany_keeps_iff {base count rand : ℕ} {mem : Memory ω} {j : ℕ} (hj : j < count) :
    (∀ s, testany base count rand mem W = .ok s → s.flag = false →
        Kept (mem (base + j)) (s.mem (base + j))) ↔
      mem (base + j) = none ∨ persistent (mem (base + j)) = true ∨
        completes base mem (order count (rand % count)) W = true ∨
          overflows base count (rand % count) mem W = true := by
  have pass : Scanned base count 0 (order count (rand % count)) mem W _ :=
    scan_scanned (order_nodup count (rand % count))
  have inside : j ∈ order count (rand % count) := mem_order.mpr hj
  constructor
  · intro keeps
    by_contra! lost
    obtain ⟨some, transient, unfinished, narrow⟩ := lost
    simp only [ne_eq, Bool.not_eq_true] at transient unfinished narrow
    have returns : testany base count rand mem W = _ :=
      (testany_eq (by omega) mem W).trans (if_neg (by simp [narrow]))
    have active : idle (mem (base + j)) = false := by
      cases eq : mem (base + j) with
      | none => exact absurd eq some
      | some r =>
        cases r with
        | rma r => rfl
        | notification n => simp [eq, persistent] at transient
    have none := Option.isSome_eq_false_iff.mp (pass.index.trans unfinished)
    rw [Option.isNone_iff_eq_none] at none
    have flag : (scan base count (order count (rand % count)) 0 mem W).flag = false := by
      by_contra flag
      have := pass.undefined.mp ⟨by simpa using flag, none⟩ j hj
      simp [active] at this
    have kept := keeps _ returns flag
    rw [pass.missed none j inside active transient] at kept
    exact some (by simpa using kept.isSome)
  · rintro keeps s returns flag
    obtain ⟨-, narrow, rfl⟩ := testany_returned returns
    have none := pass.index_none flag
    obtain kept | ⟨active, transient, -⟩ := pass.others j inside (by simp [none])
    · exact kept
    · obtain null | stays | hit | wide := keeps
      · simp [null, idle] at active
      · simp [transient] at stays
      · rw [← pass.index, none] at hit
        contradiction
      · rw [narrow] at wide
        contradiction

section Wait

theorem wait_idle (is_idle : idle h = true) : wait W h = .ok ⟨true, .empty, h, W⟩ := by
  cases h with
  | none => rfl
  | some r => simp [wait, testWait, is_idle]

/-- `foMPI_Wait` completes the operation. -/
theorem wait_rma (W : World ω κ) (r : Rma ω) : ∃ o, wait W (some (.rma r)) = .ok o ∧
    o.handle = none ∧ W.Later o.world ∧ (W.Counted → o.world.completed r) := by
  refine ⟨settle false (rmaTestWait W r true).2, rfl, ?_⟩
  by_cases sync : W.nbiCounter r.win = 0 ∧ W.counterUgniNbi (W.fompiComm r.win) = 0
  · have reply : rmaTestWait W r true = (true, ⟨.rma r.source r.elements, .rma r, W⟩) := if_pos sync
    rw [reply]
    refine ⟨rfl, .refl W, fun counted => counted.completed ?_⟩
    simp [World.ready, sync.1, sync.2]
  · have reply : rmaTestWait W r true = (true, ⟨.untouched, .rma r, W.flushAll r.win⟩) := by
      rw [rmaTestWait, if_neg sync]
      rfl
    rw [reply]
    exact ⟨rfl, .flushAll W r.win, fun counted => counted.flushed r⟩

omit [DecidableEq κ] in
theorem round_later (W : World ω κ) (n : Notification ω) (f : Notif.Frame) :
    W.Later (n.round W f).2.1 ∧ ∀ p, (n.round W f).1 = some p →
      W.Later p.world ∧ ∃ found, p.request = .notification { n with found := found } := by
  refine ⟨.of_queues W _ _, fun p returns => ?_⟩
  simp only [Notification.round] at returns
  split at returns
  · cases returns
    exact ⟨.of_queues W _ _, _, rfl⟩
  · contradiction

omit [DecidableEq κ] in
theorem notificationLoop_later {n : Notification ω} {script : List (List (Event ω))} {f : Notif.Frame}
    {p : Reply ω κ} (returns : notificationLoop n script W f = some p) :
    W.Later p.world ∧ ∃ found, p.request = .notification { n with found := found } := by
  induction script generalizing f W with
  | nil =>
    obtain ⟨later, rest⟩ := (round_later _ n f).2 p returns
    exact ⟨(World.Later.of_queues W _ _).trans later, rest⟩
  | cons batch script ih =>
    rw [notificationLoop] at returns
    obtain ⟨later, result⟩ := round_later { W with script := batch :: script } n f
    split at returns
    · rename_i p' ended
      cases returns
      obtain ⟨later, rest⟩ := result p ended
      exact ⟨(World.Later.of_queues W _ _).trans later, rest⟩
    · obtain ⟨later', rest⟩ := ih returns
      exact ⟨(World.Later.of_queues W _ _).trans (later.trans ((World.Later.events _ batch).trans later')), rest⟩

/-- `foMPI_Wait` leaves an active persistent request active. -/
theorem wait_notification {n : Notification ω} {o : Outcome ω κ} (active : n.active = true)
    (returns : wait W (some (.notification n)) = .ok o) :
    W.Later o.world ∧ ∃ found, o.handle = some (.notification { n with found := found }) := by
  simp only [wait, testWait, idle, active, Bool.not_true, Bool.false_eq_true, if_false, if_true,
    Request.waitFun, notificationWait] at returns
  cases loop : notificationLoop n W.script W ⟨.unexpected, n.found, none⟩ with
  | none => simp [loop] at returns
  | some p =>
    simp only [loop, Option.map_some, Except.ok.injEq] at returns
    obtain ⟨later, found, request⟩ := notificationLoop_later loop
    rw [← returns]
    exact ⟨later, found, by simp [settle, request]⟩

/-- What `foMPI_Wait` leaves of a handle. -/
theorem wait_spec {o : Outcome ω κ} (returns : wait W h = .ok o) :
    W.Later o.world ∧ (o.handle = none ∨ Kept h o.handle) := by
  cases is_idle : idle h with
  | true =>
    rw [wait_idle is_idle] at returns
    cases returns
    exact ⟨.refl W, .inr (.inl rfl)⟩
  | false =>
    cases h with
    | none => contradiction
    | some r =>
      cases r with
      | rma r =>
        obtain ⟨o', eq, handle, later, -⟩ := wait_rma W r
        rw [eq] at returns
        cases returns
        exact ⟨later, .inl handle⟩
      | notification n =>
        obtain ⟨later, found, handle⟩ := wait_notification (by simpa [idle] using is_idle) returns
        exact ⟨later, .inr (.inr ⟨n, found, rfl, handle⟩)⟩

end Wait

section Runs
variable {s t : State ω κ} {a : Action ω}

/-- No incomplete request that is not persistent is tested, and the counter of a window does not
wrap around. -/
def Careful (s : State ω κ) : Action ω → Prop
  | .rma _ win _ _ dmapp _ => (s.world.nbiCounter win).toNat + dmapp < 4294967296
  | .test k => s.mem k = none ∨ persistent (s.mem k) = true ∨ ready s.world (s.mem k) = true
  | .testany base count rand | .waitany base count rand _ =>
    frees base s.mem (order count (rand % count)) s.world = false
  | _ => True

/-- Operations under way are counted, and a handle that owes a report is that of the operation. -/
structure Sound (s : State ω κ) : Prop where
  counted : s.world.Counted
  owed : ∀ k r, s.owed k = some r → s.mem k = some (.rma r)

theorem World.Counted.issue (counted : W.Counted) {win : ω} {dmapp : ℕ} (id ugni : ℕ)
    (narrow : (W.nbiCounter win).toNat + dmapp < 4294967296) : (W.issue win id dmapp ugni).Counted where
  dmapp := by
    have zero : (0 : BitVec 32).toNat = 0 := rfl
    intro o ho
    simp only [World.issue] at ho ⊢
    obtain rfl | other := eq_or_ne o.1 win
    · rw [Function.update_self]
      have positive : (W.nbiCounter o.1).toNat + dmapp ≠ 0 := by
        obtain old | new := List.mem_append.mp ho
        · have := counted.dmapp o old
          rw [ne_eq, ← BitVec.toNat_inj, zero] at this
          omega
        · have := (List.mem_replicate.mp new).1
          omega
      rw [ne_eq, ← BitVec.toNat_inj, BitVec.toNat_add, BitVec.toNat_ofNat, zero]
      omega
    · rw [Function.update_of_ne other]
      obtain old | new := List.mem_append.mp ho
      · exact counted.dmapp o old
      · exact absurd (congrArg Prod.fst (List.mem_replicate.mp new).2) other
  ugni := by
    intro o ho
    simp only [World.issue] at ho ⊢
    obtain same | other := eq_or_ne o.1 (W.fompiComm win)
    · rw [same, Function.update_self]
      obtain old | new := List.mem_append.mp ho
      · have := counted.ugni o old
        rw [same] at this
        omega
      · have := (List.mem_replicate.mp new).1
        omega
    · rw [Function.update_of_ne other]
      obtain old | new := List.mem_append.mp ho
      · exact counted.ugni o old
      · exact absurd (congrArg Prod.fst (List.mem_replicate.mp new).2) other

omit [DecidableEq ω] [DecidableEq κ] in
/-- A handle that owes a report is found by a call that keeps all others. -/
theorem Sound.of_report {mem : Memory ω} {world : World ω κ} {k : ℕ} (sound : Sound s)
    (counted : world.Counted) (kept : ∀ i ≠ k, Kept (s.mem i) (mem i)) :
    Sound { s.report k with mem := mem, world := world } where
  counted := counted
  owed := by
    intro i r owed
    simp only [State.report] at owed
    obtain rfl | other := eq_or_ne i k
    · simp at owed
    · rw [Function.update_of_ne other] at owed
      exact (sound.owed i r owed ▸ kept i other).of_rma

omit [DecidableEq ω] [DecidableEq κ] in
theorem Sound.of_kept {mem : Memory ω} {world : World ω κ} (sound : Sound s)
    (counted : world.Counted) (kept : ∀ i, Kept (s.mem i) (mem i)) :
    Sound { s with mem := mem, world := world } where
  counted := counted
  owed := by
    intro i r owed
    exact (sound.owed i r owed ▸ kept i).of_rma

omit [DecidableEq ω] [DecidableEq κ] in
theorem Sound.scanned {base : ℕ} {r : Scan ω κ} (sound : Sound s)
    (returned : Returned base s.mem s.world r)
    (kept : ∀ k, (∀ i, r.index = some i → k ≠ base + i) → Kept (s.mem k) (r.mem k)) :
    Sound { s.reportIndex base r.index with mem := r.mem, world := r.world } := by
  have counted := returned.later.counted sound.counted
  cases index : r.index with
  | none => exact sound.of_kept counted fun k => kept k (by simp [index])
  | some i =>
    apply sound.of_report counted
    intro k distinct
    apply kept
    intro j hj
    rw [index] at hj
    cases hj
    exact distinct

omit [DecidableEq ω] [DecidableEq κ] in
/-- A handle is written; it owes what the user is told. -/
theorem Sound.write {k : ℕ} {h : Handle ω} {world : World ω κ} {owed : Option (Rma ω)}
    (sound : Sound s) (counted : world.Counted) (fits : ∀ r, owed = some r → h = some (.rma r))
    {issued : ℕ} {starts completions : ℕ → ℕ} :
    Sound ⟨Function.update s.mem k h, world, issued, Function.update s.owed k owed, starts, completions⟩ where
  counted := counted
  owed := by
    intro i r owes
    simp only at owes ⊢
    obtain rfl | other := eq_or_ne i k
    · rw [Function.update_self] at owes ⊢
      exact fits r owes
    · rw [Function.update_of_ne other] at owes ⊢
      exact sound.owed i r owes

theorem Sound.step (sound : Sound s) (move : step s a = some t) (careful : Careful s a) : Sound t := by
  cases a with
  | rma k win elements source dmapp ugni =>
    cases move
    exact sound.write (sound.counted.issue _ _ careful) fun r eq => congrArg (some ∘ Request.rma) (Option.some.inj eq)
  | notifyInit k win args =>
    cases move
    exact sound.write sound.counted (by simp)
  | requestFree k =>
    cases move
    exact sound.write sound.counted (by simp)
  | start k =>
    cases move
    refine ⟨sound.counted, fun i r owed => ?_⟩
    have held := sound.owed i r owed
    dsimp only
    obtain rfl | other := eq_or_ne i k
    · rw [Function.update_self, held]
      rfl
    · rw [Function.update_of_ne other, held]
  | test k =>
    have counted := (World.Later.test s.world (s.mem k)).counted sound.counted
    have others (i : ℕ) (other : i ≠ k) :
        Kept (s.mem i) (Function.update s.mem k (test s.world (s.mem k)).handle i) :=
      .inl (Function.update_of_ne other _ _)
    cases move
    cases flag : (test s.world (s.mem k)).flag with
    | true => exact sound.of_report counted others
    | false =>
      apply sound.of_kept counted
      intro i
      obtain rfl | other := eq_or_ne i k
      · rw [Function.update_self]
        exact (test_keeps_iff _ _).mpr careful flag
      · exact others i other
  | wait k =>
    simp only [Req.step] at move
    split at move
    · contradiction
    · rename_i o returns
      cases move
      apply sound.of_report ((wait_spec returns).1.counted sound.counted)
      intro i other
      exact .inl (Function.update_of_ne other _ _)
  | testany base count rand =>
    obtain ⟨r, returns, rfl⟩ := State.scanned_eq_some move
    have pass := testany_scanned returns
    exact sound.scanned pass.returned fun k distinct => pass.element_kept careful distinct
  | waitany base count rand rands =>
    obtain ⟨r, returns, rfl⟩ := State.scanned_eq_some move
    exact sound.scanned (waitany_returned returns) fun k distinct => waitany_kept careful returns distinct
  | flushAll win =>
    cases move
    exact sound.of_kept ((World.Later.flushAll _ _).counted sound.counted) fun _ => .inl rfl
  | network e =>
    cases move
    exact sound.of_kept ((World.Later.event _ _).counted sound.counted) fun _ => .inl rfl
  | schedule script =>
    cases move
    exact sound.of_kept ((World.Later.of_queues _ _ _).counted sound.counted) fun _ => .inl rfl

omit [DecidableEq ω] [DecidableEq κ] in
theorem sound_init (W : World ω κ) : Sound (init W) :=
  ⟨⟨by simp [init], by simp [init]⟩, by simp [init]⟩

/-- A handle that owes a report makes it only when its operation is complete. -/
theorem Sound.report (sound : Sound s) {k : ℕ} {r : Rma ω} (owed : s.owed k = some r) :
    ((test s.world (s.mem k)).flag = true → (test s.world (s.mem k)).world.completed r) ∧
      ∀ o, wait s.world (s.mem k) = .ok o → o.world.completed r := by
  rw [sound.owed k r owed]
  obtain ⟨flag, -, world⟩ := test_rma s.world r
  constructor
  · rw [flag, world]
    exact sound.counted.completed
  · intro o returns
    obtain ⟨o', eq, -, -, completed⟩ := wait_rma s.world r
    rw [eq] at returns
    cases returns
    exact completed sound.counted

end Runs

/-- When a test keeps an incomplete request, and when reports of completion are true. -/
theorem incomplete_survives :
    (∀ (W : World ω κ) (h : Handle ω),
      ((test W h).flag = false → Kept h (test W h).handle) ↔
        h = none ∨ persistent h = true ∨ ready W h = true) ∧
    (∀ (W : World ω κ) (mem : Memory ω) (base count rand j : ℕ), j < count →
      ((∀ s, testany base count rand mem W = .ok s → s.flag = false →
          Kept (mem (base + j)) (s.mem (base + j))) ↔
        mem (base + j) = none ∨ persistent (mem (base + j)) = true ∨
          completes base mem (order count (rand % count)) W = true ∨
            overflows base count (rand % count) mem W = true)) ∧
    ∀ (W : World ω κ) (s : State ω κ), Reach step (fun s a _ => Careful s a) (init W) s →
      ∀ k r, s.owed k = some r →
        ((test s.world (s.mem k)).flag = true → (test s.world (s.mem k)).world.completed r) ∧
          ∀ o, wait s.world (s.mem k) = .ok o → o.world.completed r := by
  refine ⟨test_keeps_iff, fun W mem base count rand j hj => testany_keeps_iff hj, fun W s run k r owed => ?_⟩
  have sound : Sound s :=
    run.invariant (sound_init W) fun _ _ _ sound move careful => sound.step move careful
  exact sound.report owed

section Example

/-- A window with empty queues. -/
def quiet : World Unit Unit where
  locality _ := ⟨false, 0, 0, []⟩
  fompiComm _ := ()
  queues _ := ⟨[], [], []⟩
  nbiCounter _ := 0
  counterUgniNbi _ := 0
  dmapp := []
  ugni := []
  script := []

/-- A put completes before it is tested. -/
theorem incomplete_survives_put : ∃ s : State Unit Unit, s.owed 0 = some ⟨0, (), 1, 1⟩ ∧
    (test s.world (s.mem 0)).flag = true ∧ (test s.world (s.mem 0)).world.completed ⟨0, (), 1, 1⟩ := by
  have put : Reach step (fun s a _ => Careful s a) (init quiet) _ :=
    .tail .refl (show step (init quiet) (.rma 0 () 1 1 1 0) = some _ from rfl) (by simp [Careful, init, quiet])
  have run := Reach.tail put (show step _ (.network (.dmappDone 0)) = some _ from rfl) trivial
  exact ⟨_, rfl, rfl, (incomplete_survives.2.2 quiet _ run 0 _ rfl).1 rfl⟩

/-- The first test of a put under way takes its handle, the second reports that it is complete. -/
theorem incomplete_survives_fails :
    (¬ ∀ (W : World Unit Unit) (h : Handle Unit), (test W h).flag = false → Kept h (test W h).handle) ∧
    ¬ ∀ s : State Unit Unit, Reach step always (init quiet) s → ∀ k r, s.owed k = some r →
      (test s.world (s.mem k)).flag = true → (test s.world (s.mem k)).world.completed r := by
  constructor
  · intro claim
    have kept := claim { quiet with nbiCounter := fun _ => 1, dmapp := [((), 0)] }
      (some (.rma ⟨0, (), 1, 1⟩)) rfl
    exact absurd kept.isSome (by decide)
  · intro claim
    have run : Reach step always (init quiet) _ :=
      .of_exec [.rma 0 () 1 1 1 0, .test 0] rfl
    exact absurd (claim _ run 0 _ rfl rfl) (by decide)

end Example

end FoMPI.Req
