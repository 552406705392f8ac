import FoMPI.NotifLock.Tickets

/-!
# Mutual exclusion of the lock

Over all runs in which tickets are drawn in order, the array of flags is a lock that
grants one process at a time. With two thousand million sections behind it `tail`
becomes negative, and a slot then lies before the array.
-/
namespace FoMPI.NotifLock
open FoMPI.Foundation

section Runs
variable {π : Type*} [DecidableEq π] {m : ℕ} {s t : State π} {memory : ℤ → BitVec 32}

/-- Runs in which no more than `m` processes contend and `tail` is in order when a ticket is drawn. -/
def Orderly (m : ℕ) (s : State π) (a : Action π) (t : State π) : Prop :=
  Contended m t ∧ Unwrapped m s a t

theorem served (pos : 0 < m) (run : Reach (step m) (Orderly m) (init m memory) s) :
    ∃ last first ticket, Served m s last first ticket := by
  refine run.invariant (P := fun s => ∃ last first ticket, Served m s last first ticket)
    ⟨0, 0, _, Served.of_init m memory⟩ ?_
  rintro s a t ⟨last, first, ticket, h⟩ move ⟨contended, unwrapped⟩
  exact h.step pos move contended unwrapped

/-- A ticket that is not in order has a slot outside the array. -/
theorem unwrapped_of_exclusive {p : π} (move : step m s (.fetchAndAdd p) = some t)
    (exclusive : Exclusive m t) : Unwrapped m s (.fetchAndAdd p) t := by
  obtain ⟨-, rfl⟩ := step_fetchAndAdd move
  have slot := exclusive.slots p (s.next.tmod m) (by rw [State.setPc_self]; rfl)
  obtain negative | positive := lt_or_ge s.next 0
  swap
  · exact .inl positive
  · have upper : s.next.tmod m ≤ 0 := by
      have := Int.tmod_nonneg (m : ℤ) (a := -s.next) (by omega)
      rw [Int.neg_tmod] at this
      omega
    exact .inr (Int.dvd_of_tmod_eq_zero (by have := slot.1.1; omega))

/-- While tickets are in order, slots lie in the array and one process at a time is between
`xpmem_notif_lock` and `xpmem_notif_unlock`; a ticket out of order breaks this at once. -/
theorem lock_exclusive (pos : 0 < m) (run : Reach (step m) (Orderly m) (init m memory) s) :
    Exclusive m s ∧ ∀ p t, step m s (.fetchAndAdd p) = some t →
      Exclusive m t → Unwrapped m s (.fetchAndAdd p) t := by
  obtain ⟨last, first, ticket, h⟩ := served pos run
  exact ⟨h.exclusive pos, fun p t move exclusive => unwrapped_of_exclusive move exclusive⟩

/-- The lock as its users see it. -/
def HeldBy (s : State π) (holder : Option π) : Prop := ∀ p, (s.pc p).inside = true ↔ holder = some p

omit [DecidableEq π] in
theorem Exclusive.heldBy (h : Exclusive m s) : ∃ holder, HeldBy s holder := by
  by_cases busy : ∃ p, (s.pc p).inside = true
  · obtain ⟨p, inside⟩ := busy
    refine ⟨some p, fun q => ⟨fun hq => congrArg some (h.alone p q inside hq), fun same => ?_⟩⟩
    rw [← Option.some.inj same]
    exact inside
  · refine ⟨none, fun p => ⟨fun inside => absurd ⟨p, inside⟩ busy, fun none => ?_⟩⟩
    contradiction

omit [DecidableEq π] in
/-- Where only the side of `p` differs and `p` holds the lock in one of two states, it is free in the
other. -/
theorem HeldBy.eq_none {p : π} {holder : Option π} (h : HeldBy s holder) (h' : HeldBy t (some p))
    (outside : (s.pc p).inside = false) (others : ∀ q, q ≠ p → s.pc q = t.pc q) : holder = none := by
  rw [Option.eq_none_iff_forall_ne_some]
  intro q held
  have inside := (h q).mpr held
  have other : q ≠ p := by
    rintro rfl
    rw [outside] at inside
    contradiction
  rw [others q other] at inside
  exact other (Option.some.inj ((h' q).mp inside)).symm

/-- The lock goes from free to a process whose spinning ends, and becomes free again with the second
write of that process; nothing else changes who holds it. -/
inductive Handover : Action π → Option π → Option π → Prop
  | keep (a holder) : Handover a holder holder
  | grant (p) : Handover (.test p) none (some p)
  | release (p) : Handover (.set p) (some p) none

/-- The steps of the array are those of a lock that grants one process at a time. -/
theorem lock_refines (pos : 0 < m) (run : Reach (step m) (Orderly m) (init m memory) s) {a : Action π}
    (move : step m s a = some t) (orderly : Orderly m s a t) :
    ∃ holder holder', HeldBy s holder ∧ HeldBy t holder' ∧ Handover a holder holder' := by
  obtain ⟨last, first, ticket, h⟩ := served pos run
  obtain ⟨last', first', ticket', h'⟩ := served pos (.tail run move orderly)
  obtain ⟨holder, before⟩ := (h.exclusive pos).heldBy
  obtain ⟨holder', after⟩ := (h'.exclusive pos).heldBy
  refine ⟨holder, holder', before, after, ?_⟩
  -- a process whose side of the lock does not change leaves the holder alone
  have keep (same : ∀ q, (t.pc q).inside = (s.pc q).inside) : holder' = holder := by
    apply Option.ext
    intro q
    rw [← after q, ← before q, same]
  have only {p : π} (others : ∀ q, q ≠ p → t.pc q = s.pc q) (mine : (t.pc p).inside = (s.pc p).inside)
      (q : π) : (t.pc q).inside = (s.pc q).inside := by
    by_cases same : q = p
    · rw [same, mine]
    · rw [others q same]
  cases a with
  | fetchAndAdd p =>
    obtain ⟨idle, rfl⟩ := step_fetchAndAdd move
    rw [keep (only (fun q other => State.setPc_of_ne _ _ other) (by rw [State.setPc_self, idle]; rfl))]
    exact .keep _ _
  | test p =>
    obtain ⟨slot, spin, rfl | ⟨set, rfl⟩⟩ := step_test move
    · rw [keep fun _ => rfl]
      exact .keep _ _
    · obtain rfl := (after p).mp (by rw [State.setPc_self]; rfl)
      rw [before.eq_none after (by rw [spin]; rfl) fun q other => (State.setPc_of_ne _ _ other).symm]
      exact .grant p
  | clear p =>
    obtain ⟨slot, returned, rfl⟩ := step_clear move
    rw [keep (only (fun q other => State.setPc_of_ne _ _ other)
      (by rw [State.setPc_self, returned]; rfl))]
    exact .keep _ _
  | set p =>
    obtain ⟨slot, cleared, rfl⟩ := step_set move
    obtain rfl := (before p).mp (by rw [cleared]; rfl)
    rw [after.eq_none before (by rw [State.setPc_self]; rfl) fun q other => State.setPc_of_ne _ _ other]
    exact .release p

end Runs

section Wrap
variable {m k : ℕ} {s : State Unit}

/-- One process alone has drawn and served `k` tickets. -/
structure Quiet (m k : ℕ) (s : State Unit) : Prop where
  idle : s.pc () = .idle
  drawn : s.words tail = BitVec.ofNat 32 k
  flag : s.words ((k % m : ℕ) : ℤ) = 1

theorem Quiet.round (h : Quiet m k s) (small : k < 2147483648) :
    ∃ t, Reach (step m) always s t ∧ Quiet m (k + 1) t := by
  have slot : s.next.tmod m = ((k % m : ℕ) : ℤ) := by
    have value : s.next = (BitVec.ofNat 32 k).toInt := by rw [State.next, h.drawn]
    rw [value]
    exact (slot_of_ticket (.inr (.inl small.le)) (.inl (by
      rw [BitVec.toInt_eq_toNat_of_lt] <;> rw [BitVec.toNat_ofNat] <;> omega))).1
  set s₁ := (s.write tail (s.words tail + 1)).setPc () (.spin ((k % m : ℕ) : ℤ)) with made₁
  set s₂ := s₁.setPc () (.returned ((k % m : ℕ) : ℤ)) with made₂
  set s₃ := (s₂.write ((k % m : ℕ) : ℤ) 0).setPc () (.cleared ((k % m : ℕ) : ℤ)) with made₃
  set s₄ := (s₃.write (((k + 1) % m : ℕ) : ℤ) 1).setPc () .idle with made₄
  have draw : step m s (.fetchAndAdd ()) = some s₁ := by simp only [step, h.idle, slot, made₁]
  have lit : s₁.words ((k % m : ℕ) : ℤ) = 1 := by
    rw [made₁, State.setPc_words, State.write_of_ne _ _ (tail_ne _), h.flag]
  have spin : step m s₁ (.test ()) = some s₂ := by
    have pc : s₁.pc () = .spin ((k % m : ℕ) : ℤ) := State.setPc_self _ _ _
    simp only [step, pc]
    rw [if_neg (by rw [lit]; decide)]
  have clear : step m s₂ (.clear ()) = some s₃ := by
    have pc : s₂.pc () = .returned ((k % m : ℕ) : ℤ) := State.setPc_self _ _ _
    simp only [step, pc, made₃]
  have set : step m s₃ (.set ()) = some s₄ := by
    have pc : s₃.pc () = .cleared ((k % m : ℕ) : ℤ) := State.setPc_self _ _ _
    simp only [step, pc, slot_next, made₄]
  refine ⟨s₄, .tail (.tail (.tail (.tail .refl draw trivial) spin trivial) clear trivial) set trivial,
    State.setPc_self _ _ _, ?_, State.write_self _ _ _⟩
  rw [made₄, State.setPc_words, State.write_of_ne _ _ (tail_ne _).symm, made₃,
    State.setPc_words, State.write_of_ne _ _ (tail_ne _).symm, made₂, State.setPc_words, made₁,
    State.setPc_words, State.write_self, h.drawn, BitVec.ofNat_add]
  rfl

theorem Quiet.of_init (pos : 0 < m) (memory : ℤ → BitVec 32) : Quiet m 0 (init m memory) := by
  have h : Served m (init m memory : State Unit) 0 0 fun _ => 0 := Served.of_init m memory
  refine ⟨rfl, h.drawn, ?_⟩
  rw [Nat.zero_mod, init_words m memory (by decide) (by simpa using pos)]
  rfl

/-- The number of sections of a run has no limit but the width of `tail`. -/
theorem quiet_reached (pos : 0 < m) (memory : ℤ → BitVec 32) :
    ∀ k ≤ 2147483648, ∃ s, Reach (step m) always (init m memory) s ∧ Quiet m k s
  | 0, _ => ⟨_, .refl, Quiet.of_init pos memory⟩
  | k + 1, le => by
    obtain ⟨s, run, quiet⟩ := quiet_reached pos memory k (by omega)
    obtain ⟨t, more, next⟩ := quiet.round (by omega)
    exact ⟨t, run.trans more, next⟩

theorem contended_unit (pos : 0 < m) (s : State Unit) : Contended m s := fun ps _ =>
  (Finset.card_le_univ ps).trans pos

/-- The ticket `2147483648` of three processes has slot `-2`, which is `count`. -/
theorem lock_exclusive_fails : ¬∀ (m : ℕ) (memory : ℤ → BitVec 32) (s : State Unit), 0 < m →
    Reach (step m) (fun _ _ t => Contended m t) (init m memory) s → Exclusive m s := by
  intro claim
  obtain ⟨s, run, quiet⟩ := quiet_reached (m := 3) (by decide) (fun _ => 0) 2147483648 le_rfl
  have draw : ∃ t, step 3 s (.fetchAndAdd ()) = some t ∧ t.pc () = .spin (-2) := by
    refine ⟨(s.write tail (s.words tail + 1)).setPc () (.spin (-2)), ?_, State.setPc_self _ _ _⟩
    have value : s.next.tmod 3 = -2 := by
      rw [State.next, quiet.drawn]
      decide
    simp [step, quiet.idle, value]
  obtain ⟨t, move, pc⟩ := draw
  have exclusive := claim 3 (fun _ => 0) t (by decide)
    ((run.tail move trivial).mono fun _ _ t _ => contended_unit (by decide) t)
  have slot := exclusive.slots () (-2) (by rw [pc]; rfl)
  exact absurd slot.1.1 (by decide)

end Wrap

section Example

instance (m : ℕ) (s : State Bool) : ∀ a t, Decidable (Unwrapped m s a t)
  | .fetchAndAdd _, _ => inferInstanceAs (Decidable (_ ∨ _))
  | .test _, _ | .clear _, _ | .set _, _ => inferInstanceAs (Decidable True)

/-- One of two processes has the lock and the other waits for it. -/
theorem lock_exclusive_two : ∃ s : State Bool, Reach (step 2) (Orderly 2) (init 2 fun _ => 7) s ∧
    s.pc true = .returned 0 ∧ s.pc false = .spin 1 ∧ Exclusive 2 s := by
  have ran : (execWhen (step 2) (fun s a t => Unwrapped 2 s a t) (init 2 fun _ => 7)
      [.fetchAndAdd true, .fetchAndAdd false, .test false, .test true, .test false]).map
      (fun s => (s.pc true, s.pc false)) = some (.returned 0, .spin 1) := by
    decide +kernel
  obtain ⟨s, run, trace⟩ := Option.map_eq_some_iff.mp ran
  obtain ⟨first, second⟩ := Prod.mk.inj trace
  have reach : Reach (step 2) (Orderly 2) (init 2 fun _ => 7) s := by
    refine Reach.of_execWhen (fun _ _ t ok => ⟨?_, of_decide_eq_true ok⟩) _ run
    exact fun ps _ => (Finset.card_le_univ ps).trans (by simp)
  exact ⟨s, reach, first, second, (lock_exclusive (by decide) reach).1⟩

end Example

end FoMPI.NotifLock
