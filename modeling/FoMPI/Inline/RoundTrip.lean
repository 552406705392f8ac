import FoMPI.Inline.Model
import Mathlib.Data.BitVec

/-!
# What becomes of inline data

The headers come out in the order in which they went in. The data is taken from
the wrong end of the queue: from the entry that will be written next.
-/
namespace FoMPI.Inline
open FoMPI.Foundation FoMPI.XpmemQueue

variable {ndebug : Bool} {s t : State} {p : Push}

/-- An entry holds what a call has put into it. -/
structure Carries (n : NotifEx) (p : Push) : Prop where
  notif : (⟨n.source, n.tag⟩ : Notif) = p.notif
  size : n.size = p.payload.length
  buff : load n.buff 0 n.size = p.payload
  target : ∀ memory, store memory n.targetAddr p.payload = p.deliver memory

theorem carries_entry (old : NotifEx) (p : Push) : Carries (p.entry old) p := by
  cases p with
  | data d => exact ⟨rfl, rfl, load_store, fun _ => rfl⟩
  | plain x => exact ⟨rfl, rfl, rfl, fun _ => rfl⟩

/-- The calls from `popped` on are in the queue, in the entries from `extractInd` on. -/
structure Represents (s : State) : Prop where
  count : s.count = (s.pushed.length : ℤ) - s.popped
  order : s.popped ≤ s.pushed.length
  room : s.pushed.length ≤ s.popped + numDstCqEntries
  inser : s.inserInd = s.pushed.length % numDstCqEntries
  extract : s.extractInd = s.popped % numDstCqEntries
  entries : ∀ k q, s.pushed[k]? = some q → s.popped ≤ k → Carries (s.queueArray (k % numDstCqEntries)) q

namespace Represents

theorem of_init (queueArray : ℕ → NotifEx) (memory : ℤ → BitVec 8) : Represents (init queueArray memory) :=
  ⟨rfl, le_rfl, Nat.zero_le _, rfl, rfl, fun k q found => by simp [init] at found⟩

theorem push (h : Represents s) (room : s.count < numDstCqEntries) (p : Push) : Represents (s.push p) := by
  have count := h.count
  have order := h.order
  have length : (s.pushed ++ [p]).length = s.pushed.length + 1 := by simp
  refine ⟨?_, ?_, ?_, ?_, h.extract, ?_⟩
  · simp only [State.push, length]
    omega
  · simp only [State.push, length]
    omega
  · simp only [State.push, length]
    omega
  · simp only [State.push, length, h.inser, Nat.mod_add_mod]
  · intro k q found le
    simp only [State.push] at found le ⊢
    obtain old | new := Nat.lt_or_ge k s.pushed.length
    · rw [List.getElem?_append_left old] at found
      have apart : k % numDstCqEntries ≠ s.inserInd := by
        rw [h.inser]
        exact mod_ne_of_window old (by omega)
      rw [Function.update_of_ne apart]
      exact h.entries k q found le
    · obtain ⟨below, -⟩ := List.getElem?_eq_some_iff.mp found
      obtain rfl : k = s.pushed.length := by omega
      rw [List.getElem?_append_right le_rfl, Nat.sub_self, List.getElem?_cons_zero] at found
      cases found
      rw [← h.inser, Function.update_self]
      exact carries_entry _ _

/-- A pop that returns a notification takes the oldest one. -/
theorem pop (h : Represents s) (stored : s.count ≠ 0) (memory : ℤ → BitVec 8) :
    Represents { s with
      memory := memory
      extractInd := (s.extractInd + 1) % numDstCqEntries
      count := s.count - 1
      popped := s.popped + 1 } := by
  have count := h.count
  have order := h.order
  have room := h.room
  refine ⟨?_, ?_, ?_, h.inser, ?_, fun k q found le => h.entries k q found (by simp only at le; omega)⟩
  · simp only
    omega
  · simp only
    omega
  · simp only
    omega
  · simp only [h.extract, Nat.mod_add_mod]

theorem step {a : Action} (h : Represents s) (move : step ndebug s a = some t) : Represents t := by
  cases a with
  | push p =>
    simp only [Inline.step, Option.ite_none_right_eq_some, Option.some.injEq] at move
    obtain ⟨room, rfl⟩ := move
    exact h.push room p
  | pop =>
    simp only [Inline.step, State.pop] at move
    split at move
    · contradiction
    · rename_i result u ended eq
      cases move
      split at eq
      · cases eq
        exact h
      · rename_i stored
        split at eq
        · cases eq
          exact absurd rfl ended
        · cases eq
          exact h.pop stored _

/-- The entry that a pop reads. -/
theorem next (h : Represents s) (found : s.pushed[s.popped]? = some p) :
    s.count ≠ 0 ∧ Carries (s.queueArray s.extractInd) p := by
  obtain ⟨below, -⟩ := List.getElem?_eq_some_iff.mp found
  have count := h.count
  refine ⟨by omega, ?_⟩
  rw [h.extract]
  exact h.entries _ _ found le_rfl

/-- Only a queue that is full has its two ends in one entry. -/
theorem ends_meet (h : Represents s) (stored : s.count ≠ 0) :
    s.inserInd = s.extractInd ↔ s.count = numDstCqEntries := by
  have count := h.count
  have order := h.order
  have room := h.room
  rw [h.inser, h.extract]
  constructor
  · intro same
    by_contra other
    exact mod_ne_of_window (N := numDstCqEntries) (k := s.popped) (m := s.pushed.length) (by omega)
      (by omega) same.symm
  · intro full
    have length : s.pushed.length = s.popped + numDstCqEntries := by omega
    rw [length, Nat.add_mod_right]

end Represents

theorem reach_represents {queueArray : ℕ → NotifEx} {memory : ℤ → BitVec 8}
    (run : Reach (step ndebug) always (init queueArray memory) s) : Represents s :=
  run.invariant (Represents.of_init queueArray memory) fun _ _ _ h move _ => h.step move

/-- A pop returns the notification of the oldest call in the queue, and does with its payload what it
should exactly where the wrong entry does not show. -/
theorem inline_round_trip {queueArray : ℕ → NotifEx} {memory : ℤ → BitVec 8}
    (run : Reach (step ndebug) always (init queueArray memory) s)
    (found : s.pushed[s.popped]? = some p) : Delivers ndebug s p ↔ Masked ndebug s := by
  obtain ⟨stored, carries⟩ := (reach_represents run).next found
  unfold Delivers Masked State.pop
  simp only [if_neg stored]
  set n := s.queueArray s.extractInd with def_n
  obtain rejected | accepted := Decidable.em (0 < n.size ∧ ndebug = false ∧ ¬n.size < notifInlineBuffSize)
  · rw [if_pos rejected]
    simp only [reduceCtorEq, false_and, false_iff]
    rintro (empty | ⟨release | small, -⟩)
    · omega
    · rw [release] at rejected
      exact absurd rejected.2.1 (by decide)
    · exact rejected.2.2 small
  · rw [if_neg accepted]
    have header : PopResult.found n.source n.tag = .found p.notif.source p.notif.tag := by
      rw [← carries.notif]
    have copied : store s.memory n.targetAddr (load (s.queueArray s.inserInd).buff 0 n.size) =
        p.deliver s.memory ↔ load (s.queueArray s.inserInd).buff 0 n.size = load n.buff 0 n.size := by
      rw [← carries.target, carries.buff]
      refine ⟨store_inj ?_, congrArg _⟩
      rw [load_length, carries.size]
    simp only [header, true_and, copied]
    constructor
    · intro same
      by_cases empty : n.size = 0
      · exact .inl empty
      · refine .inr ⟨?_, same⟩
        by_contra both
        obtain ⟨debug, large⟩ := not_or.mp both
        exact accepted ⟨by omega, by simpa using debug, large⟩
    · rintro (empty | ⟨-, same⟩)
      · rw [empty]
        rfl
      · exact same

/-- A queue that is full hides the defect. -/
theorem masked_of_full (h : Represents s) (stored : s.count ≠ 0) (full : s.count = numDstCqEntries)
    (small : ndebug = true ∨ (s.queueArray s.extractInd).size < notifInlineBuffSize) :
    Masked ndebug s := by
  refine .inr ⟨small, ?_⟩
  rw [(h.ends_meet stored).mpr full]

section Example

def blank (_ : ℕ) : NotifEx := ⟨0, 0, 0, 0, fun _ => 0⟩

def zeros (_ : ℤ) : BitVec 8 := 0

theorem singleton_fits (b : BitVec 8) : [b].length ≤ notifInlineBuffSize := Nat.le_add_left 1 39

/-- One byte for the address `64`. -/
def oneByte (b : BitVec 8) : Push := .data ⟨0, 64, [b], 7, singleton_fits b⟩

theorem replicate_fits : (List.replicate 40 (0 : BitVec 8)).length ≤ notifInlineBuffSize := by decide

/-- As much as the buffer holds. -/
def fullBuffer : Push := .data ⟨0, 64, List.replicate 40 0, 7, replicate_fits⟩

def after (p : Push) : State := (init blank zeros).push p

theorem reach_after (ndebug : Bool) (p : Push) :
    Reach (step ndebug) always (init blank zeros) (after p) := by
  have move : step ndebug (init blank zeros) (.push p) = some (after p) := by
    rw [step, if_pos (by decide)]
    rfl
  exact .tail .refl move trivial

/-- The first notification with a byte in it fails in both builds, and one with a full buffer aborts a
debug build. -/
theorem inline_round_trip_fails :
    (∀ ndebug, ¬∀ queueArray memory s p, Reach (step ndebug) always (init queueArray memory) s →
      s.pushed[s.popped]? = some p → Delivers ndebug s p) ∧
    ¬∀ queueArray memory s, Reach (step false) always (init queueArray memory) s →
      (s.pop false).1 ≠ .aborted := by
  constructor
  · intro ndebug claim
    have arrived := claim blank zeros (after (oneByte 1)) (oneByte 1) (reach_after _ _) rfl
    have byte := congrFun arrived.2 64
    cases ndebug <;> exact absurd byte (by decide +kernel)
  · intro claim
    exact claim blank zeros (after fullBuffer) (reach_after _ _) (by decide +kernel)

/-- A byte that is equal to what the next entry holds arrives. -/
theorem inline_round_trip_zero : Delivers false (after (oneByte 0)) (oneByte 0) :=
  (inline_round_trip (reach_after false (oneByte 0)) rfl).mpr (.inr ⟨.inr (by decide), rfl⟩)

end Example

end FoMPI.Inline
