import FoMPI.Foundation.Ledger
import FoMPI.XpmemQueue.Capacity

/-!
# How far the queue can be overfull

A producer that has passed the fullness test inserts whatever others do meanwhile. So the
queue holds at most what it has room for and one notification more for every other producer,
and this is reached: all producers pass the test with one slot free.
-/
namespace FoMPI.XpmemQueue
open FoMPI.Foundation
open scoped BigOperators

variable {π : Type*} [DecidableEq π] {s t : State π} {p : π}

/-- The notifications that a producer will insert without another test. -/
def PushPc.due : PushPc → ℤ
  | .idle | .checkCount | .unlock => 0
  | _ => 1

theorem PushPc.due_bounds (pc : PushPc) : 0 ≤ pc.due ∧ pc.due ≤ 1 := by
  cases pc <;> simp [due]

section Bound
variable [Fintype π]

/-- What is in the queue, and what is on its way into it. -/
structure Loaded (s : State π) : Prop where
  counted : s.count = (s.pushed.length : ℤ) - s.popped.length
  loaded : s.count + ∑ p, (s.producers p).pc.due ≤ 999 + Fintype.card π

/-- A step of one producer that inserts no more than it has announced, or passes the test. -/
theorem Loaded.move (h : Loaded s) (counted : t.count = (t.pushed.length : ℤ) - t.popped.length)
    (others : ∀ q, q ≠ p → t.producers q = s.producers q)
    (kept : t.count + (t.producers p).pc.due ≤ s.count + (s.producers p).pc.due ∨ t.count ≤ 999) : Loaded t := by
  refine ⟨counted, ?_⟩
  obtain kept | room := kept
  · have change : ∑ q, (t.producers q).pc.due =
        ∑ q, (s.producers q).pc.due + ((t.producers p).pc.due - (s.producers p).pc.due) :=
      sum_change p _ (by ring) fun q other => by rw [others q other]
    have loaded := h.loaded
    rw [change]
    omega
  · have few : ∑ q, (t.producers q).pc.due ≤ ∑ _q : π, (1 : ℤ) := Finset.sum_le_sum fun q _ => (PushPc.due_bounds _).2
    rw [Finset.sum_const, Finset.card_univ, nsmul_eq_mul, mul_one] at few
    omega

theorem Loaded.push (h : Loaded s) (move : s.push p = some t) : Loaded t := by
  have counted := h.counted
  unfold State.push at move
  cases here : (s.producers p).pc with
  | idle => simp [here] at move
  | checkCount =>
    simp only [here] at move
    split at move
    · rename_i room
      cases move
      refine h.move counted (setPc_frame _) (.inr ?_)
      unfold numDstCqEntries at room
      change s.count ≤ 999
      omega
    · cases move
      exact h
  | lock =>
    simp only [here] at move
    split at move
    · cases move
      exact h.move counted (setPc_frame _) (.inl (by simp [State.setPc, here, PushPc.due]))
    · contradiction
  | addCount =>
    simp only [here, Option.some.injEq] at move
    subst move
    refine h.move ?_ (setPc_frame _) (.inl (by simp [State.setPc, here, PushPc.due]))
    simp only [State.setPc, List.length_append, List.length_singleton]
    push_cast
    omega
  | readInserInd | writeTag ind | writeSource ind | writeSize ind | writeInserInd ind | unlock =>
    simp only [here, Option.some.injEq] at move
    subst move
    exact h.move counted (setPc_frame _) (.inl (by simp [State.setPc, State.write, here, PushPc.due]))

omit [DecidableEq π] in
theorem Loaded.pop (h : Loaded s) : Loaded s.pop := by
  obtain ⟨counted, loaded⟩ := h
  unfold State.pop
  cases s.consumer with
  | idle =>
    dsimp only
    split <;> exact ⟨counted, loaded⟩
  | readSource | readTag source | readSize source tag | advance source tag => exact ⟨counted, loaded⟩
  | subCount source tag =>
    refine ⟨?_, ?_⟩
    · simp only [List.length_append, List.length_singleton]
      push_cast
      omega
    · change s.count - 1 + ∑ p, (s.producers p).pc.due ≤ _
      omega

theorem Loaded.step (h : Loaded s) {a : Action π} (move : step s a = some t) : Loaded t := by
  cases a with
  | call p arg =>
    simp only [XpmemQueue.step, Option.ite_none_right_eq_some, Option.some.injEq] at move
    obtain ⟨idle, rfl⟩ := move
    exact h.move (p := p) h.counted (fun q other => by simp [other]) (.inl (by simp [idle, PushPc.due]))
  | push p => exact h.push move
  | pop =>
    cases move
    exact h.pop

end Bound

section Reached

/-- The producers of a list have passed the test, one after the other. -/
theorem admit_all (memory : ℕ → Slot) {ps : List π} (nodup : ps.Nodup) (p : π) :
    ∃ s, Reach step always (init memory : State π) s ∧ s.count = 999 ∧ s.pushed.length = 999 ∧ s.popped = [] ∧
      s.holder = none ∧ ∀ q, (s.producers q).pc = if q ∈ ps then .lock else .idle := by
  induction ps with
  | nil =>
    obtain ⟨s, reached, fill⟩ := filled memory p (k := 999) (by decide)
    exact ⟨s, reached, fill.count, fill.pushed, fill.popped, fill.holder, fun q => by simp [fill.idle]⟩
  | cons q ps ih =>
    obtain ⟨fresh, nodup⟩ := List.nodup_cons.mp nodup
    obtain ⟨s, reached, count, pushed, popped, holder, places⟩ := ih nodup
    have admission := admission_spec (p := q) (by rw [places, if_neg fresh]) (by rw [count]; decide) ⟨1, 7⟩
    refine ⟨_, reached.trans (Reach.of_exec _ admission), count, pushed, popped, holder, fun r => ?_⟩
    by_cases same : r = q
    · simp [admitted, same]
    · simp [admitted, same, places]

/-- Those that have passed it insert, one after the other. -/
theorem insert_all (ps : List π) (nodup : ps.Nodup) (waiting : ∀ q ∈ ps, (s.producers q).pc = .lock)
    (free : s.holder = none) : ∃ t, Reach step always s t ∧ t.pushed.length = s.pushed.length + ps.length ∧
      t.popped = s.popped := by
  induction ps generalizing s with
  | nil => exact ⟨s, .refl, rfl, rfl⟩
  | cons q ps ih =>
    obtain ⟨fresh, nodup⟩ := List.nodup_cons.mp nodup
    obtain ⟨t, insertion, -, pushed, popped, holder, -, -, -, others⟩ :=
      insertion_spec (waiting q List.mem_cons_self) free
    have waiting' : ∀ r ∈ ps, (t.producers r).pc = .lock := by
      intro r mem
      have ne : r ≠ q := fun same => fresh (same ▸ mem)
      rw [others r ne]
      exact waiting r (List.mem_cons_of_mem _ mem)
    obtain ⟨u, rest, pushed', popped'⟩ := ih nodup waiting' holder
    refine ⟨u, (Reach.of_exec _ insertion).trans rest, ?_, popped'.trans popped⟩
    rw [pushed', pushed, List.length_append, List.length_singleton, List.length_cons, Nat.add_assoc, Nat.add_comm 1]

end Reached

/-- On no run does the queue hold more than its slots and one notification more for every producer but one, and
on some run it holds as many. -/
theorem overshoot_exact [Fintype π] [Nonempty π] (memory : ℕ → Slot) :
    (∀ s, Reach step always (init memory : State π) s →
      s.pushed.length ≤ s.popped.length + (numDstCqEntries + (Fintype.card π - 1))) ∧
    ∃ s, Reach step always (init memory : State π) s ∧
      s.pushed.length = s.popped.length + (numDstCqEntries + (Fintype.card π - 1)) := by
  have pos := Fintype.card_pos (α := π)
  refine ⟨fun s run => ?_, ?_⟩
  · have loaded : Loaded s := run.invariant ⟨rfl, by simp [init, PushPc.due]; omega⟩ fun _ _ _ h move _ => h.step move
    have due : 0 ≤ ∑ p, (s.producers p).pc.due := Finset.sum_nonneg fun p _ => (PushPc.due_bounds _).1
    have := loaded.counted
    have := loaded.loaded
    unfold numDstCqEntries
    omega
  · obtain ⟨p⟩ := ‹Nonempty π›
    have nodup := Finset.nodup_toList (Finset.univ : Finset π)
    obtain ⟨s, reached, -, pushed, popped, holder, places⟩ := admit_all memory nodup p
    obtain ⟨t, inserted, pushed', popped'⟩ := insert_all _ nodup (fun q mem => by rw [places q, if_pos mem]) holder
    refine ⟨t, reached.trans inserted, ?_⟩
    rw [pushed', pushed, popped', popped, Finset.length_toList, Finset.card_univ, List.length_nil]
    unfold numDstCqEntries
    omega

theorem overshoot_exact_three : (∀ s, Reach step always (init fun _ => ⟨0, 0, 0⟩ : State (Fin 3)) s →
      s.pushed.length ≤ s.popped.length + 1002) ∧
    ∃ s, Reach step always (init fun _ => ⟨0, 0, 0⟩ : State (Fin 3)) s ∧
      s.pushed.length = s.popped.length + 1002 :=
  overshoot_exact (π := Fin 3) fun _ => ⟨0, 0, 0⟩

end FoMPI.XpmemQueue
