import FoMPI.NotifLock.Exclusion
import FoMPI.XpmemQueue.Capacity

/-!
# The queue with its lock

`xpmem_notif_push` with `xpmem_notif_lock` and `xpmem_notif_unlock` as they are: a ticket is
drawn behind the fullness test, and the two flags are written behind the addition to `count`.
Nothing reads `holder` here; it records whom the array of flags has let in. The complete
program does what the queue does whose lock grants one waiting producer at a time.
-/
namespace FoMPI.XpmemQueue.Locked
open FoMPI.Foundation FoMPI.XpmemQueue

variable {π : Type*} [DecidableEq π]

structure State (π : Type*) where
  queue : XpmemQueue.State π
  lock : NotifLock.State π

/-- `xpmem_notif_init_queue` for `m` processes on the node. -/
def init (m : ℕ) (slots : ℕ → Slot) (words : ℤ → BitVec 32) : State π :=
  ⟨XpmemQueue.init slots, NotifLock.init m words⟩

/-- One step of `xpmem_notif_push`. -/
def push (m : ℕ) (s : State π) (p : π) : Option (State π) :=
  match (s.queue.producers p).pc with
  | .lock =>
    match s.lock.pc p with
    | .idle => (NotifLock.step m s.lock (.fetchAndAdd p)).map fun lock => { s with lock := lock }
    | _ =>
      (NotifLock.step m s.lock (.test p)).map fun lock =>
        if (lock.pc p).inside then ⟨{ s.queue.setPc p .readInserInd with holder := some p }, lock⟩
        else { s with lock := lock }
  | .unlock =>
    match s.lock.pc p with
    | .returned _ => (NotifLock.step m s.lock (.clear p)).map fun lock => { s with lock := lock }
    | _ => (NotifLock.step m s.lock (.set p)).map fun lock => ⟨{ s.queue.setPc p .idle with holder := none }, lock⟩
  | _ => (s.queue.push p).map fun queue => { s with queue := queue }

def step (m : ℕ) (s : State π) : Action π → Option (State π)
  | .call p arg => (XpmemQueue.step s.queue (.call p arg)).map fun queue => { s with queue := queue }
  | .push p => push m s p
  | .pop => some { s with queue := s.queue.pop }

/-- A producer that is at its lock draws a ticket. -/
def Draws (s : State π) : Action π → Prop
  | .push p => (s.queue.producers p).pc = .lock ∧ s.lock.pc p = .idle
  | _ => False

/-- Runs of no more than `m` producers, with `tail` in order when a ticket is drawn, and with room in the queue
where a producer first writes its slot. -/
def Orderly (m : ℕ) (s : State π) (a : Action π) (t : State π) : Prop :=
  NotifLock.Contended m t.lock ∧ (Draws s a → 0 ≤ s.lock.next ∨ (m : ℤ) ∣ s.lock.next) ∧ Roomy s.queue a t.queue

/-- The place of a producer in the lock, by its place in `xpmem_notif_push`. -/
def Fits (pc : PushPc) (lock : NotifLock.Pc) : Prop :=
  match pc with
  | .idle | .checkCount => lock = .idle
  | .lock => lock.inside = false
  | .unlock => lock.inside = true
  | _ => ∃ slot, lock = .returned slot

theorem Fits.inside {pc : PushPc} {lock : NotifLock.Pc} (fits : Fits pc lock) : lock.inside = pc.inside := by
  cases pc with
  | idle | checkCount => rw [show lock = .idle from fits]; rfl
  | lock | unlock => exact fits
  | readInserInd | writeTag ind | writeSource ind | writeSize ind | writeInserInd ind | addCount =>
    obtain ⟨slot, rfl⟩ := fits
    rfl

section Steps
variable {m : ℕ} {s t : State π} {p q : π}

/-- The two records of who is where agree. -/
structure Rel (s : State π) : Prop where
  fits : ∀ p, Fits (s.queue.producers p).pc (s.lock.pc p)
  held : NotifLock.HeldBy s.lock s.queue.holder

/-- What a step of a producer does in the lock and in the queue. -/
inductive Pushes (m : ℕ) (s : State π) (p : π) : State π → Prop
  /-- in the lock alone -/
  | waits (a : NotifLock.Action π) (lock : NotifLock.State π) (move : NotifLock.step m s.lock a = some lock)
    (draws : a = .fetchAndAdd p → Draws s (.push p)) (other : ∀ q, q ≠ p → lock.pc q = s.lock.pc q)
    (fits : Fits (s.queue.producers p).pc (lock.pc p)) (same : (lock.pc p).inside = (s.lock.pc p).inside)
    (own : ∀ q, a = .fetchAndAdd q → q = p) : Pushes m s p { s with lock := lock }
  | grant (lock : NotifLock.State π) (move : NotifLock.step m s.lock (.test p) = some lock)
    (here : (s.queue.producers p).pc = .lock) (outside : (s.lock.pc p).inside = false)
    (returned : ∃ slot, lock.pc p = .returned slot) (other : ∀ q, q ≠ p → lock.pc q = s.lock.pc q) :
    Pushes m s p ⟨{ s.queue.setPc p .readInserInd with holder := some p }, lock⟩
  | release (lock : NotifLock.State π) (move : NotifLock.step m s.lock (.set p) = some lock)
    (here : (s.queue.producers p).pc = .unlock) (idle : lock.pc p = .idle)
    (other : ∀ q, q ≠ p → lock.pc q = s.lock.pc q) : Pushes m s p ⟨{ s.queue.setPc p .idle with holder := none }, lock⟩
  /-- in the queue alone -/
  | goes (queue : XpmemQueue.State π) (move : s.queue.push p = some queue)
    (away : (s.queue.producers p).pc ≠ .lock ∧ (s.queue.producers p).pc ≠ .unlock) :
    Pushes m s p { s with queue := queue }

theorem Pushes.of_push (rel : Rel s) (move : push m s p = some t) : Pushes m s p t := by
  have fits := rel.fits p
  unfold push at move
  cases here : (s.queue.producers p).pc with
  | lock =>
    simp only [here, Fits] at move fits
    cases at_lock : s.lock.pc p with
    | idle =>
      simp only [at_lock] at move
      obtain ⟨lock, drawn, rfl⟩ := Option.map_eq_some_iff.mp move
      obtain ⟨-, rfl⟩ := NotifLock.step_fetchAndAdd drawn
      refine .waits _ _ drawn (fun _ => ⟨here, at_lock⟩) (fun q other => NotifLock.State.setPc_of_ne _ _ other) ?_ ?_
        fun q same => (NotifLock.Action.fetchAndAdd.inj same).symm
      · rw [here, NotifLock.State.setPc_self]
        rfl
      · rw [NotifLock.State.setPc_self, at_lock]
        rfl
    | spin slot =>
      simp only [at_lock] at move
      obtain ⟨lock, tested, rfl⟩ := Option.map_eq_some_iff.mp move
      obtain ⟨slot', spin, rfl | ⟨-, rfl⟩⟩ := NotifLock.step_test tested
      · rw [if_neg (by simp [at_lock, NotifLock.Pc.inside])]
        exact .waits _ _ tested (by simp) (fun _ _ => rfl) (by rw [here]; exact fits) rfl (by simp)
      · rw [if_pos (by rw [NotifLock.State.setPc_self]; rfl)]
        exact .grant _ tested here fits ⟨slot', NotifLock.State.setPc_self _ _ _⟩
          fun q other => NotifLock.State.setPc_of_ne _ _ other
    | returned slot | cleared slot =>
      rw [at_lock] at fits
      contradiction
  | unlock =>
    simp only [here, Fits] at move fits
    cases at_lock : s.lock.pc p with
    | returned slot =>
      simp only [at_lock] at move
      obtain ⟨lock, clears, rfl⟩ := Option.map_eq_some_iff.mp move
      obtain ⟨slot', -, rfl⟩ := NotifLock.step_clear clears
      refine .waits _ _ clears (by simp) (fun q other => NotifLock.State.setPc_of_ne _ _ other) ?_ ?_ (by simp)
      · rw [here, NotifLock.State.setPc_self]
        rfl
      · rw [NotifLock.State.setPc_self, at_lock]
        rfl
    | cleared slot =>
      simp only [at_lock] at move
      obtain ⟨lock, sets, rfl⟩ := Option.map_eq_some_iff.mp move
      obtain ⟨slot', -, rfl⟩ := NotifLock.step_set sets
      exact .release _ sets here (NotifLock.State.setPc_self _ _ _)
        fun q other => NotifLock.State.setPc_of_ne _ _ other
    | idle | spin slot =>
      rw [at_lock] at fits
      contradiction
  | idle | checkCount | readInserInd | writeTag ind | writeSource ind | writeSize ind | writeInserInd ind | addCount =>
    simp only [here] at move
    obtain ⟨queue, pushed, rfl⟩ := Option.map_eq_some_iff.mp move
    exact .goes queue pushed (by simp [here])

/-- A step of the queue that takes and gives back no lock. -/
theorem push_frame {s t : XpmemQueue.State π} (move : s.push p = some t)
    (away : (s.producers p).pc ≠ .lock ∧ (s.producers p).pc ≠ .unlock) : t.holder = s.holder ∧
      (∀ q, q ≠ p → t.producers q = s.producers q) ∧
      ∀ lock, Fits (s.producers p).pc lock → Fits (t.producers p).pc lock := by
  unfold XpmemQueue.State.push at move
  cases here : (s.producers p).pc with
  | idle => simp [here] at move
  | lock => exact absurd here away.1
  | unlock => exact absurd here away.2
  | checkCount =>
    simp only [here] at move
    split at move
    · cases move
      refine ⟨rfl, setPc_frame _, fun lock fits => ?_⟩
      rw [show lock = .idle from fits]
      simp [XpmemQueue.State.setPc, Fits, NotifLock.Pc.inside]
    · cases move
      exact ⟨rfl, fun _ _ => rfl, fun lock fits => by rw [here]; exact fits⟩
  | addCount =>
    simp only [here, Option.some.injEq] at move
    subst move
    refine ⟨rfl, setPc_frame _, fun lock fits => ?_⟩
    obtain ⟨slot, rfl⟩ := fits
    simp [XpmemQueue.State.setPc, Fits, NotifLock.Pc.inside]
  | readInserInd | writeTag ind | writeSource ind | writeSize ind | writeInserInd ind =>
    simp only [here, Option.some.injEq] at move
    subst move
    exact ⟨rfl, setPc_frame _, fun lock fits => by simpa [XpmemQueue.State.setPc, Fits] using fits⟩

omit [DecidableEq π] in
/-- The relation by the one producer that takes a step. -/
theorem Rel.update (rel : Rel s) (fits : Fits (t.queue.producers p).pc (t.lock.pc p))
    (queue : ∀ q, q ≠ p → t.queue.producers q = s.queue.producers q) (lock : ∀ q, q ≠ p → t.lock.pc q = s.lock.pc q)
    (held : NotifLock.HeldBy t.lock t.queue.holder) : Rel t := by
  refine ⟨fun q => ?_, held⟩
  by_cases same : q = p
  · rw [same]
    exact fits
  · rw [queue q same, lock q same]
    exact rel.fits q

/-- Every step of the complete program is a step of the lock, or none, and a step of the queue, or none. -/
theorem Pushes.refines (pushes : Pushes m s p t) (rel : Rel s) (after : NotifLock.Exclusive m t.lock) :
    Rel t ∧ (t.queue = s.queue ∨ s.queue.push p = some t.queue) := by
  cases pushes with
  | waits a lock move draws other fits same =>
    refine ⟨rel.update fits (fun _ _ => rfl) other fun q => ?_, .inl rfl⟩
    rw [← rel.held q]
    by_cases mine : q = p
    · rw [mine, same]
    · rw [other q mine]
  | grant lock move here outside returned other =>
    have inside : (lock.pc p).inside = true := by
      obtain ⟨slot, at_slot⟩ := returned
      rw [at_slot]
      rfl
    have held : NotifLock.HeldBy lock (some p) := fun q =>
      ⟨fun hq => congrArg some (after.alone p q inside hq), fun h => Option.some.inj h ▸ inside⟩
    have free : s.queue.holder = none := rel.held.eq_none held outside fun q ne => (other q ne).symm
    refine ⟨rel.update ?_ (setPc_frame _) other held, .inr ?_⟩
    · simpa [XpmemQueue.State.setPc, Fits] using returned
    · simp [XpmemQueue.State.push, here, free]
  | release lock move here idle other =>
    have held : s.queue.holder = some p := by
      rw [← rel.held p, (rel.fits p).inside, here]
      rfl
    refine ⟨rel.update (by simp [XpmemQueue.State.setPc, Fits, idle]) (setPc_frame _) other fun q => ?_, .inr ?_⟩
    · refine ⟨fun inside => ?_, by simp⟩
      have ne : q ≠ p := by
        rintro rfl
        rw [idle] at inside
        contradiction
      change (lock.pc q).inside = true at inside
      rw [other q ne, rel.held q, held] at inside
      exact absurd (Option.some.inj inside).symm ne
    · simp [XpmemQueue.State.push, here]
  | goes queue move away =>
    obtain ⟨holder, others, fits⟩ := push_frame move away
    refine ⟨rel.update (fits _ (rel.fits p)) others (fun _ _ => rfl) ?_, .inr move⟩
    change NotifLock.HeldBy s.lock queue.holder
    rw [holder]
    exact rel.held

end Steps

section Runs
variable {m : ℕ} {slots : ℕ → Slot} {words : ℤ → BitVec 32} {s t : State π}

theorem exclusive_of_served (pos : 0 < m) {lock : NotifLock.State π}
    (run : Reach (NotifLock.step m) (NotifLock.Orderly m) (NotifLock.init m words) lock) : NotifLock.Exclusive m lock := by
  obtain ⟨last, first, ticket, served⟩ := NotifLock.served pos run
  exact served.exclusive pos

/-- The complete program runs the lock and the queue, in step. -/
structure Refines (m : ℕ) (slots : ℕ → Slot) (words : ℤ → BitVec 32) (s : State π) : Prop where
  rel : Rel s
  lock : Reach (NotifLock.step m) (NotifLock.Orderly m) (NotifLock.init m words) s.lock
  queue : Reach XpmemQueue.step Roomy (XpmemQueue.init slots) s.queue

theorem Refines.step (pos : 0 < m) (h : Refines m slots words s) {a : Action π} (move : step m s a = some t)
    (orderly : Orderly m s a t) : Refines m slots words t := by
  obtain ⟨contended, drawn, roomy⟩ := orderly
  cases a with
  | call p arg =>
    obtain ⟨queue, called, rfl⟩ := Option.map_eq_some_iff.mp move
    refine ⟨?_, h.lock, .tail h.queue called roomy⟩
    simp only [XpmemQueue.step, Option.ite_none_right_eq_some, Option.some.injEq] at called
    obtain ⟨idle, rfl⟩ := called
    have fits := h.rel.fits p
    rw [idle] at fits
    exact h.rel.update (p := p) (by simpa [Fits] using fits) (fun q other => by simp [other]) (fun _ _ => rfl) h.rel.held
  | pop =>
    cases move
    have frame : s.queue.pop.producers = s.queue.producers ∧ s.queue.pop.holder = s.queue.holder := by
      unfold XpmemQueue.State.pop
      split
      · split <;> exact ⟨rfl, rfl⟩
      all_goals exact ⟨rfl, rfl⟩
    refine ⟨⟨fun p => ?_, ?_⟩, h.lock, .tail (a := .pop) h.queue rfl roomy⟩
    · rw [frame.1]
      exact h.rel.fits p
    · rw [frame.2]
      exact h.rel.held
  | push p =>
    have pushes := Pushes.of_push h.rel move
    have reached : Reach (NotifLock.step m) (NotifLock.Orderly m) (NotifLock.init m words) t.lock := by
      cases pushes with
      | waits a lock stepped draws other fits same own =>
        refine .tail h.lock stepped ⟨contended, ?_⟩
        cases a with
        | fetchAndAdd q =>
          obtain rfl := own q rfl
          exact drawn (draws rfl)
        | _ => trivial
      | grant lock stepped => exact .tail h.lock stepped ⟨contended, trivial⟩
      | release lock stepped => exact .tail h.lock stepped ⟨contended, trivial⟩
      | goes => exact h.lock
    obtain ⟨rel, same | stepped⟩ := pushes.refines h.rel (exclusive_of_served pos reached)
    · exact ⟨rel, reached, by rw [same]; exact h.queue⟩
    · exact ⟨rel, reached, .tail h.queue (show XpmemQueue.step s.queue (.push p) = some t.queue from stepped) roomy⟩

/-- With its lock of tickets the queue is a bounded queue, in which one producer at a time is between the lock and
the unlock. -/
theorem locked_queue_bounded (pos : 0 < m) (run : Reach (step m) (Orderly m) (init m slots words) s) :
    Bounded s.queue ∧
      ∀ p q, (s.queue.producers p).pc.inside = true → (s.queue.producers q).pc.inside = true → p = q := by
  have refines : Refines m slots words s := run.invariant
    ⟨⟨fun _ => rfl, fun p => by simp [init, NotifLock.init, NotifLock.Pc.inside, XpmemQueue.init]⟩, .refl, .refl⟩
    fun _ _ _ h move orderly => h.step pos move orderly
  have inv : Inv s.queue := refines.queue.invariant (Inv.init slots) fun _ _ _ inv move roomy => inv.step move roomy
  refine ⟨inv.bounded, fun p q hp hq => ?_⟩
  rw [← (refines.rel.fits p).inside] at hp
  rw [← (refines.rel.fits q).inside] at hq
  exact (exclusive_of_served pos refines.lock).alone p q hp hq

instance (s : State π) : (a : Action π) → Decidable (Draws s a)
  | .push p => inferInstanceAs (Decidable ((s.queue.producers p).pc = .lock ∧ s.lock.pc p = .idle))
  | .call .. | .pop => .isFalse id

/-- Two producers: the second one to come to the lock waits for the first. -/
def contest : List (Action Bool) :=
  [.call false ⟨1, 7⟩, .push false, .call true ⟨2, 8⟩, .push true, .push true, .push false, .push false] ++
    List.replicate 9 (.push true) ++ List.replicate 9 (.push false) ++ List.replicate 6 .pop

theorem locked_queue_bounded_contest : ∃ s : State Bool, s.queue.pushed = [⟨2, 8⟩, ⟨1, 7⟩] ∧
    s.queue.popped = [⟨2, 8⟩] ∧ Bounded s.queue ∧
      ∀ p q, (s.queue.producers p).pc.inside = true → (s.queue.producers q).pc.inside = true → p = q := by
  have ran : (execWhen (step 2)
      (fun s a t => decide (Draws s a → 0 ≤ s.lock.next ∨ (2 : ℤ) ∣ s.lock.next) && roomy s.queue a t.queue)
      (init 2 (fun _ => ⟨0, 0, 0⟩) fun _ => 7) contest).map (fun s => (s.queue.pushed, s.queue.popped)) =
      some ([⟨2, 8⟩, ⟨1, 7⟩], [⟨2, 8⟩]) := by
    decide +kernel
  obtain ⟨s, run, history⟩ := Option.map_eq_some_iff.mp ran
  obtain ⟨pushed, popped⟩ := Prod.mk.inj history
  refine ⟨s, pushed, popped, locked_queue_bounded (m := 2) (by decide)
    (Reach.of_execWhen (fun s a t ok => ?_) _ run)⟩
  obtain ⟨drawn, room⟩ := (Bool.and_eq_true _ _).mp ok
  exact ⟨fun ps _ => (Finset.card_le_univ ps).trans (by simp), of_decide_eq_true drawn, roomy_sound room⟩

end Runs

end FoMPI.XpmemQueue.Locked
