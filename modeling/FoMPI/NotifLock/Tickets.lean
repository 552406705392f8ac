import FoMPI.NotifLock.Model
import FoMPI.Foundation.Ring
import Mathlib.Order.Interval.Finset.Nat

/-!
# Tickets and slots

Counted from the beginning, process by process, the tickets drawn and the sections
ended are unbounded; `tail` and the slots are remainders of them. As many processes
contend as tickets are out, so no two tickets out share a slot.
-/
namespace FoMPI.NotifLock
open FoMPI.Foundation

variable {π : Type*} {m last first : ℕ} {ticket : π → ℕ} {s t : State π}

/-- The tickets `first` to `last - 1` are out, each with one process. The flag of the slot of `first`
is set until its process clears it. -/
structure Served (m : ℕ) (s : State π) (last first : ℕ) (ticket : π → ℕ) : Prop where
  drawn : s.words tail = BitVec.ofNat 32 last
  range : m = 1 ∨ last ≤ 2147483648 ∨ (last = 2147483649 ∧ m ∣ 2147483648)
  waiting : ∀ p, ∀ slot ∈ (s.pc p).slot,
    first ≤ ticket p ∧ ticket p < last ∧ slot = ((ticket p % m : ℕ) : ℤ)
  distinct : ∀ p q, s.pc p ≠ .idle → s.pc q ≠ .idle → ticket p = ticket q → p = q
  complete : ∀ k, first ≤ k → k < last → ∃ p, s.pc p ≠ .idle ∧ ticket p = k
  order : first ≤ last
  window : last ≤ first + m
  inside : ∀ p, (s.pc p).inside = true → ticket p = first
  flags : ∀ i < m, s.words (i : ℤ) ≠ 0 ↔ i = first % m ∧ ∀ p, (s.pc p).passing = false

/-- The tickets that are out are no more than the processes that contend. -/
theorem window_of_contended (contended : Contended m s)
    (complete : ∀ k, first ≤ k → k < last → ∃ p, s.pc p ≠ .idle ∧ ticket p = k) : last ≤ first + m := by
  obtain some | none := Nat.lt_or_ge first last
  swap
  · omega
  have : Nonempty π := (complete first le_rfl some).nonempty
  choose! owner busy own using complete
  have injective : Set.InjOn owner (Finset.Ico first last : Set ℕ) := by
    intro k hk l hl same
    rw [Finset.mem_coe, Finset.mem_Ico] at hk hl
    rw [← own k hk.1 hk.2, same, own l hl.1 hl.2]
  classical
  have few := contended ((Finset.Ico first last).image owner) fun p hp => by
    obtain ⟨k, hk, rfl⟩ := Finset.mem_image.mp hp
    rw [Finset.mem_Ico] at hk
    exact busy k hk.1 hk.2
  rw [Finset.card_image_of_injOn injective, Nat.card_Ico] at few
  omega

/-- The slot of a ticket, for the ticket numbers that `range` admits. -/
theorem slot_of_ticket (range : m = 1 ∨ last ≤ 2147483648 ∨ (last = 2147483649 ∧ m ∣ 2147483648))
    (unwrapped : 0 ≤ (BitVec.ofNat 32 last).toInt ∨ (m : ℤ) ∣ (BitVec.ofNat 32 last).toInt) :
    (BitVec.ofNat 32 last).toInt.tmod m = ((last % m : ℕ) : ℤ) ∧
      (m = 1 ∨ last + 1 ≤ 2147483648 ∨ (last + 1 = 2147483649 ∧ m ∣ 2147483648)) := by
  obtain rfl | below | ⟨rfl, divides⟩ := range
  · refine ⟨?_, .inl rfl⟩
    rw [Nat.mod_one]
    exact Int.tmod_one _
  · obtain less | rfl := Nat.lt_or_eq_of_le below
    · have value : (BitVec.ofNat 32 last).toInt = last := by
        rw [BitVec.toInt_eq_toNat_of_lt] <;> rw [BitVec.toNat_ofNat] <;> omega
      rw [value]
      exact ⟨(Int.ofNat_tmod last m).symm, .inr (.inl less)⟩
    · have negative : (BitVec.ofNat 32 2147483648).toInt = -2147483648 := by decide
      rw [negative] at unwrapped ⊢
      have divides : (m : ℤ) ∣ -2147483648 := unwrapped.resolve_left (by decide)
      have divides' : m ∣ 2147483648 := by
        have := (Int.dvd_neg).mp divides
        exact_mod_cast this
      refine ⟨?_, .inr (.inr ⟨rfl, divides'⟩)⟩
      rw [Int.tmod_eq_zero_of_dvd divides, Nat.mod_eq_zero_of_dvd divides']
      rfl
  · -- two consecutive numbers that both are multiples
    have negative : (BitVec.ofNat 32 2147483649).toInt = -2147483647 := by decide
    rw [negative] at unwrapped
    have divides' : (m : ℤ) ∣ -2147483647 := unwrapped.resolve_left (by decide)
    have one : m ∣ 1 := by
      have low : m ∣ 2147483647 := by
        have := (Int.dvd_neg).mp divides'
        exact_mod_cast this
      exact (Nat.dvd_add_right low).mp divides
    obtain rfl := Nat.dvd_one.mp one
    refine ⟨?_, .inl rfl⟩
    rw [Nat.mod_one]
    exact Int.tmod_one _

/-- The flags lie behind the counters. -/
theorem tail_ne (i : ℕ) : (i : ℤ) ≠ tail := by
  unfold tail
  omega

theorem slot_next (m k : ℕ) : (((k % m : ℕ) : ℤ) + 1).tmod m = (((k + 1) % m : ℕ) : ℤ) := by
  have cast : ((k % m : ℕ) : ℤ) + 1 = ((k % m + 1 : ℕ) : ℤ) := by simp
  rw [cast, ← Int.ofNat_tmod, Nat.mod_add_mod]

namespace Served

theorem exclusive (pos : 0 < m) (h : Served m s last first ticket) : Exclusive m s := by
  have inArray (k : ℕ) : InArray m ((k % m : ℕ) : ℤ) :=
    ⟨Int.natCast_nonneg _, Int.ofNat_lt.mpr (Nat.mod_lt k pos)⟩
  constructor
  · intro p slot here
    obtain ⟨-, -, rfl⟩ := h.waiting p slot here
    rw [slot_next]
    exact ⟨inArray _, inArray _⟩
  · intro p q hp hq
    refine h.distinct p q ?_ ?_ ((h.inside p hp).trans (h.inside q hq).symm)
    · intro idle
      simp [idle, Pc.inside] at hp
    · intro idle
      simp [idle, Pc.inside] at hq

variable {p q : π} {slot : ℤ}

/-- The process of the first ticket keeps its ticket while it keeps its slot. -/
theorem move_on (h : Served m s last first ticket) (own : ticket p = first)
    (self : (t.pc p).slot = (s.pc p).slot) (others : ∀ q, q ≠ p → t.pc q = s.pc q)
    (kept : t.words tail = s.words tail)
    (flags : ∀ i < m, t.words (i : ℤ) ≠ 0 ↔ i = first % m ∧ ∀ q, (t.pc q).passing = false) :
    Served m t last first ticket := by
  have slots (q : π) : (t.pc q).slot = (s.pc q).slot := by
    by_cases same : q = p
    · rw [same, self]
    · rw [others q same]
  have inside (q : π) (hq : (t.pc q).inside = true) : ticket q = first := by
    by_cases same : q = p
    · rw [same, own]
    · rw [others q same] at hq
      exact h.inside q hq
  have busy (q : π) : t.pc q ≠ .idle ↔ s.pc q ≠ .idle := by
    rw [not_iff_not, ← Pc.slot_eq_none, slots, Pc.slot_eq_none]
  refine ⟨kept.trans h.drawn, h.range, ?_, ?_, ?_, h.order, h.window, inside, flags⟩
  · intro q slot here
    rw [slots] at here
    exact h.waiting q slot here
  · intro q r hq hr
    exact h.distinct q r ((busy q).mp hq) ((busy r).mp hr)
  · intro k low high
    obtain ⟨q, hq, has⟩ := h.complete k low high
    exact ⟨q, (busy q).mpr hq, has⟩

/-- The flag of a ticket that is out is set only if it is the first one and nobody is inside
`xpmem_notif_unlock`. -/
theorem first_of_flag (pos : 0 < m) (h : Served m s last first ticket) (spin : s.pc p = .spin slot)
    (set : s.words slot ≠ 0) : ticket p = first := by
  obtain ⟨low, high, rfl⟩ := h.waiting p slot (by rw [spin]; rfl)
  obtain ⟨same, -⟩ := (h.flags _ (Nat.mod_lt _ pos)).mp set
  by_contra other
  have window := h.window
  exact mod_ne_of_window (N := m) (k := first) (m := ticket p) (by omega) (by omega) same.symm

theorem of_init (m : ℕ) (memory : ℤ → BitVec 32) :
    Served m (init m memory : State π) 0 0 fun _ => 0 := by
  refine ⟨?_, .inr (.inl (Nat.zero_le _)), ?_, ?_, ?_, le_rfl, Nat.zero_le _, ?_, ?_⟩
  · rw [init_words m memory le_rfl (by unfold tail; omega)]
    rfl
  · intro p slot here
    contradiction
  · intro p q busy
    exact absurd rfl busy
  · intro k _ below
    contradiction
  · intro p inside
    contradiction
  · intro i hi
    have quiet : ∀ p : π, ((init m memory : State π).pc p).passing = false := fun _ => rfl
    have low : tail ≤ (i : ℤ) := by
      unfold tail
      omega
    rw [and_iff_left quiet, Nat.zero_mod, init_words m memory low (by omega)]
    by_cases zero : i = 0 <;> simp [zero]

variable [DecidableEq π]

/-- A process draws the last ticket. -/
theorem fetchAndAdd (h : Served m s last first ticket) (idle : s.pc p = .idle)
    (unwrapped : 0 ≤ s.next ∨ (m : ℤ) ∣ s.next)
    (made : t = (s.write tail (s.words tail + 1)).setPc p (.spin (s.next.tmod m)))
    (contended : Contended m t) :
    Served m t (last + 1) first (Function.update ticket p last) := by
  have value : s.next = (BitVec.ofNat 32 last).toInt := by rw [State.next, h.drawn]
  rw [value] at unwrapped made
  obtain ⟨own, range⟩ := slot_of_ticket h.range unwrapped
  have words : t.words = Function.update s.words tail (s.words tail + 1) := by
    rw [made]
    rfl
  have self : t.pc p = .spin ((last % m : ℕ) : ℤ) := by rw [made, State.setPc_self, own]
  have others {q : π} (other : q ≠ p) : t.pc q = s.pc q := by
    rw [made, State.setPc_of_ne _ _ other, State.write_pc]
  have keeps {q : π} (other : q ≠ p) : Function.update ticket p last q = ticket q :=
    Function.update_of_ne other _ _
  have complete : ∀ k, first ≤ k → k < last + 1 →
      ∃ q, t.pc q ≠ .idle ∧ Function.update ticket p last q = k := by
    intro k low high
    obtain rfl | old := Nat.eq_or_lt_of_le (Nat.lt_succ_iff.mp high)
    · exact ⟨p, by rw [self]; simp, Function.update_self _ _ _⟩
    · obtain ⟨q, busy, has⟩ := h.complete k low old
      have other : q ≠ p := fun same => busy (same ▸ idle)
      exact ⟨q, others other ▸ busy, keeps other ▸ has⟩
  have earlier {q : π} (busy : s.pc q ≠ .idle) : ticket q < last := by
    cases here : s.pc q with
    | idle => exact absurd here busy
    | spin slot | returned slot | cleared slot => exact (h.waiting q slot (by rw [here]; rfl)).2.1
  refine ⟨?_, range, ?_, ?_, complete, by have := h.order; omega,
    window_of_contended contended complete, ?_, ?_⟩
  · rw [words, Function.update_self, h.drawn, BitVec.ofNat_add]
    rfl
  · intro q slot here
    by_cases same : q = p
    · subst same
      rw [self] at here
      cases here
      rw [Function.update_self]
      exact ⟨h.order, Nat.lt_succ_self _, rfl⟩
    · rw [others same] at here
      rw [keeps same]
      obtain ⟨low, high, place⟩ := h.waiting q slot here
      exact ⟨low, high.trans (Nat.lt_succ_self _), place⟩
  · intro q r hq hr equal
    by_cases sameq : q = p <;> by_cases samer : r = p
    · rw [sameq, samer]
    · rw [sameq, Function.update_self, keeps samer] at equal
      exact absurd (earlier (others samer ▸ hr)) (by omega)
    · rw [samer, Function.update_self, keeps sameq] at equal
      exact absurd (earlier (others sameq ▸ hq)) (by omega)
    · rw [keeps sameq, keeps samer] at equal
      exact h.distinct q r (others sameq ▸ hq) (others samer ▸ hr) equal
  · intro q hq
    by_cases same : q = p
    · subst same
      rw [self] at hq
      contradiction
    · rw [others same] at hq
      rw [keeps same]
      exact h.inside q hq
  · intro i hi
    have none : (∀ q, (t.pc q).passing = false) ↔ ∀ q, (s.pc q).passing = false := by
      refine forall_congr' fun q => ?_
      by_cases same : q = p
      · rw [same, self, idle]
        rfl
      · rw [others same]
    rw [words, Function.update_of_ne (tail_ne i), none]
    exact h.flags i hi

/-- The process of the first ticket finds its flag set. -/
theorem test (pos : 0 < m) (h : Served m s last first ticket) (spin : s.pc p = .spin slot)
    (set : s.words slot ≠ 0) : Served m (s.setPc p (.returned slot)) last first ticket := by
  have own := h.first_of_flag pos spin set
  have self : (s.setPc p (.returned slot)).pc p = .returned slot := State.setPc_self _ _ _
  have others (q : π) (other : q ≠ p) : (s.setPc p (.returned slot)).pc q = s.pc q :=
    State.setPc_of_ne _ _ other
  apply h.move_on own
  · rw [self, spin]
    rfl
  · exact others
  · rfl
  · intro i hi
    have none : (∀ q, ((s.setPc p (.returned slot)).pc q).passing = false) ↔
        ∀ q, (s.pc q).passing = false := by
      refine forall_congr' fun q => ?_
      by_cases same : q = p
      · rw [same, self, spin]
        rfl
      · rw [others q same]
    rw [none]
    exact h.flags i hi

/-- The first write of `xpmem_notif_unlock` leaves no flag set. -/
theorem clear (h : Served m s last first ticket) (returned : s.pc p = .returned slot) :
    Served m ((s.write slot 0).setPc p (.cleared slot)) last first ticket := by
  have own := h.inside p (by rw [returned]; rfl)
  obtain ⟨-, -, place⟩ := h.waiting p slot (by rw [returned]; rfl)
  rw [own] at place
  set t := (s.write slot 0).setPc p (.cleared slot) with made
  have words : t.words = Function.update s.words slot 0 := rfl
  have self : t.pc p = .cleared slot := State.setPc_self _ _ _
  apply h.move_on own
  · rw [self, returned]
    rfl
  · intro q other
    exact State.setPc_of_ne _ _ other
  · rw [words, place, Function.update_of_ne (tail_ne _).symm]
  · intro i hi
    have busy : ¬∀ q, (t.pc q).passing = false := by
      intro none
      have := none p
      rw [self] at this
      contradiction
    simp only [busy, and_false, iff_false, not_not, words]
    by_cases same : (i : ℤ) = slot
    · rw [same, Function.update_self]
    · rw [Function.update_of_ne same]
      by_contra set
      obtain ⟨here, -⟩ := (h.flags i hi).mp set
      exact same (by rw [place, here])

/-- The second write of `xpmem_notif_unlock` passes the lock on to the next ticket. -/
theorem set (h : Served m s last first ticket) (cleared : s.pc p = .cleared slot) :
    Served m ((s.write ((slot + 1).tmod m) 1).setPc p .idle) last (first + 1) ticket := by
  have own := h.inside p (by rw [cleared]; rfl)
  obtain ⟨-, high, place⟩ := h.waiting p slot (by rw [cleared]; rfl)
  rw [own] at place high
  rw [place, slot_next]
  set t := (s.write (((first + 1) % m : ℕ) : ℤ) 1).setPc p .idle with made
  have words : t.words = Function.update s.words (((first + 1) % m : ℕ) : ℤ) 1 := rfl
  have self : t.pc p = .idle := State.setPc_self _ _ _
  have others {q : π} (other : q ≠ p) : t.pc q = s.pc q := State.setPc_of_ne _ _ other
  have other_of_busy {q : π} (busy : t.pc q ≠ .idle) : q ≠ p := fun same => busy (same ▸ self)
  have behind {q : π} (other : q ≠ p) (busy : s.pc q ≠ .idle) : ticket q ≠ first := by
    intro same
    exact other (h.distinct q p busy (by rw [cleared]; simp) (same.trans own.symm))
  have outside (q : π) : (t.pc q).inside = false := by
    by_cases same : q = p
    · rw [same, self]
      rfl
    · rw [others same, ← Bool.not_eq_true]
      intro inside
      refine behind same ?_ (h.inside q inside)
      intro idle
      rw [idle] at inside
      contradiction
  refine ⟨?_, h.range, ?_, ?_, ?_, high, by have := h.window; omega, ?_, ?_⟩
  · rw [words, Function.update_of_ne (tail_ne _).symm]
    exact h.drawn
  · intro q slot here
    have busy : t.pc q ≠ .idle := by
      rw [ne_eq, ← Pc.slot_eq_none]
      intro none
      rw [none] at here
      contradiction
    have other := other_of_busy busy
    rw [others other] at here busy
    obtain ⟨low, below, at_slot⟩ := h.waiting q slot here
    have := behind other busy
    exact ⟨by omega, below, at_slot⟩
  · intro q r hq hr
    exact h.distinct q r (others (other_of_busy hq) ▸ hq) (others (other_of_busy hr) ▸ hr)
  · intro k low below
    obtain ⟨q, busy, has⟩ := h.complete k (by omega) below
    have other : q ≠ p := by
      rintro rfl
      omega
    exact ⟨q, (others other).symm ▸ busy, has⟩
  · intro q hq
    rw [outside q] at hq
    contradiction
  · intro i hi
    have none : ∀ q, (t.pc q).passing = false := by
      intro q
      have := outside q
      cases here : t.pc q with
      | idle | spin slot | returned slot => rfl
      | cleared slot =>
        rw [here] at this
        contradiction
    rw [words, and_iff_left none]
    by_cases same : i = (first + 1) % m
    · rw [same, Function.update_self]
      simp
    · have apart : (i : ℤ) ≠ (((first + 1) % m : ℕ) : ℤ) := fun equal => same (Int.ofNat_inj.mp equal)
      rw [Function.update_of_ne apart, iff_false_right same, not_not]
      by_contra lit
      have := ((h.flags i hi).mp lit).2 p
      rw [cleared] at this
      contradiction

/-- Tickets are served one after the other, whatever a process does next. -/
theorem step (pos : 0 < m) (h : Served m s last first ticket) {a : Action π}
    (move : NotifLock.step m s a = some t) (contended : Contended m t) (unwrapped : Unwrapped m s a t) :
    ∃ last first ticket, Served m t last first ticket := by
  cases a with
  | fetchAndAdd p =>
    obtain ⟨idle, made⟩ := step_fetchAndAdd move
    exact ⟨_, _, _, h.fetchAndAdd idle unwrapped made contended⟩
  | test p =>
    obtain ⟨slot, spin, rfl | ⟨set, rfl⟩⟩ := step_test move
    · exact ⟨_, _, _, h⟩
    · exact ⟨_, _, _, h.test pos spin set⟩
  | clear p =>
    obtain ⟨slot, returned, rfl⟩ := step_clear move
    exact ⟨_, _, _, h.clear returned⟩
  | set p =>
    obtain ⟨slot, cleared, rfl⟩ := step_set move
    exact ⟨_, _, _, h.set cleared⟩

end Served

end FoMPI.NotifLock
