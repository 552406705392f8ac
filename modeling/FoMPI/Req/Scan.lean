import FoMPI.Req.Calls
import Mathlib.Data.List.Rotate
import Mathlib.Data.List.Range

/-!
# One pass over an array of requests

`_foMPI_Testany_internal` polls the elements once each, from a random one on. The
pass ends at the first request that is complete at its turn; every request that is
not persistent and was polled before is gone.
-/
namespace FoMPI.Req

variable {ω κ : Type*} [DecidableEq ω] [DecidableEq κ]
variable {base count inactive i : ℕ} {js : List ℕ} {mem : Memory ω} {W : World ω κ} {s : Scan ω κ}

section Order

theorem order_eq_rotate (count r : ℕ) : order count r = (List.range count).rotate r := by
  apply List.ext_getElem
  · simp [order]
  · intro k _ _
    simp [order, List.getElem_rotate]

theorem order_nodup (count r : ℕ) : (order count r).Nodup := by
  rw [order_eq_rotate, List.nodup_rotate]
  exact List.nodup_range

theorem mem_order {r : ℕ} : i ∈ order count r ↔ i < count := by
  rw [order_eq_rotate, List.mem_rotate, List.mem_range]

theorem order_length (count r : ℕ) : (order count r).length = count := by simp [order]

end Order

section Turns

/-- Some active request of the array is complete at its turn. -/
def completes (base : ℕ) (mem : Memory ω) : List ℕ → World ω κ → Bool
  | [], _ => false
  | i :: rest, W =>
    if idle (mem (base + i)) then completes base mem rest W
    else
      ready W.tick (mem (base + i)) ||
        completes base mem rest (test W.tick (mem (base + i))).world

/-- A request that is not persistent is polled before its operation is complete, the pass having
found no request that is. -/
def frees (base : ℕ) (mem : Memory ω) : List ℕ → World ω κ → Bool
  | [], _ => false
  | i :: rest, W =>
    if idle (mem (base + i)) then frees base mem rest W
    else
      !ready W.tick (mem (base + i)) &&
        (!persistent (mem (base + i)) || frees base mem rest (test W.tick (mem (base + i))).world)

/-- The sum of the counter and the offset `r` overflows before a request is found complete. -/
def overflows (base count r : ℕ) (mem : Memory ω) (W : World ω κ) : Bool :=
  decide (2147483648 < r + count) && !completes base mem ((order count r).take (2147483648 - r)) W

theorem completes_congr {mem' : Memory ω} (same : ∀ i ∈ js, mem' (base + i) = mem (base + i))
    (W : World ω κ) : completes base mem' js W = completes base mem js W := by
  induction js generalizing W with
  | nil => rfl
  | cons i rest ih =>
    have ih := ih fun k hk => same k (List.mem_cons_of_mem i hk)
    simp only [completes, same i List.mem_cons_self, ih]

theorem frees_congr {mem' : Memory ω} (same : ∀ i ∈ js, mem' (base + i) = mem (base + i))
    (W : World ω κ) : frees base mem' js W = frees base mem js W := by
  induction js generalizing W with
  | nil => rfl
  | cons i rest ih =>
    have ih := ih fun k hk => same k (List.mem_cons_of_mem i hk)
    simp only [frees, same i List.mem_cons_self, ih]

/-- Without a request that is neither null nor persistent nothing can be freed. -/
theorem frees_of_persistent
    (none : ∀ i ∈ js, idle (mem (base + i)) = false → persistent (mem (base + i)) = true)
    (W : World ω κ) : frees base mem js W = false := by
  induction js generalizing W with
  | nil => rfl
  | cons i rest ih =>
    have ih := ih fun k hk => none k (List.mem_cons_of_mem i hk)
    cases is_idle : idle (mem (base + i)) with
    | true => simp [frees, is_idle, ih]
    | false => simp [frees, is_idle, ih, none i List.mem_cons_self is_idle]

end Turns

/-- What a pass over the elements `js` does. -/
structure Scanned (base count inactive : ℕ) (js : List ℕ) (mem : Memory ω) (W : World ω κ)
    (s : Scan ω κ) : Prop where
  later : W.Later s.world
  outside : ∀ k, (∀ i ∈ js, k ≠ base + i) → s.mem k = mem k
  index : s.index.isSome = completes base mem js W
  found : ∀ i, s.index = some i → s.flag = true ∧ i ∈ js ∧ idle (mem (base + i)) = false ∧
    idle (s.mem (base + i)) = true ∧ persistent (s.mem (base + i)) = persistent (mem (base + i)) ∧
    (W.Counted → Complete s.world (mem (base + i)) (s.mem (base + i)))
  flag : s.index = none → (s.flag = true ↔ inactive + js.countP (fun i => idle (mem (base + i))) = count)
  others : ∀ j ∈ js, s.index ≠ some j → Kept (mem (base + j)) (s.mem (base + j)) ∨
    idle (mem (base + j)) = false ∧ persistent (mem (base + j)) = false ∧ s.mem (base + j) = none
  kept : frees base mem js W = false → ∀ j ∈ js, s.index ≠ some j →
    Kept (mem (base + j)) (s.mem (base + j))
  freed : frees base mem js W = true → ∃ j ∈ js, s.index ≠ some j ∧ idle (mem (base + j)) = false ∧
    persistent (mem (base + j)) = false ∧ s.mem (base + j) = none
  missed : s.index = none → ∀ j ∈ js, idle (mem (base + j)) = false →
    persistent (mem (base + j)) = false → s.mem (base + j) = none

namespace Scanned

theorem nil (base count inactive : ℕ) (mem : Memory ω) (W : World ω κ) :
    Scanned base count inactive [] mem W ⟨inactive = count, none, .untouched, mem, W⟩ where
  later := .refl W
  outside _ _ := rfl
  index := rfl
  found := by simp
  flag := by simp
  others := by simp
  kept := by simp
  freed := by simp [frees]
  missed := by simp

/-- A null or inactive element is passed over. -/
theorem skip (fresh : i ∉ js) (is_idle : idle (mem (base + i)) = true)
    (h : Scanned base count (inactive + 1) js mem W s) :
    Scanned base count inactive (i :: js) mem W s := by
  have same : s.mem (base + i) = mem (base + i) := by
    apply h.outside
    intro k hk eq
    exact fresh (Nat.add_left_cancel eq ▸ hk)
  have frees_eq : frees base mem (i :: js) W = frees base mem js W := by simp [frees, is_idle]
  constructor
  · exact h.later
  · intro k distinct
    exact h.outside k fun j hj => distinct j (List.mem_cons_of_mem i hj)
  · simp [completes, is_idle, h.index]
  · intro k hk
    obtain ⟨flag, member, rest⟩ := h.found k hk
    exact ⟨flag, List.mem_cons_of_mem i member, rest⟩
  · intro none
    rw [h.flag none, List.countP_cons, is_idle, if_pos rfl]
    omega
  · intro j hj distinct
    obtain rfl | hj := List.mem_cons.mp hj
    · exact .inl (.inl same)
    · exact h.others j hj distinct
  · intro safe j hj distinct
    obtain rfl | hj := List.mem_cons.mp hj
    · exact .inl same
    · exact h.kept (frees_eq ▸ safe) j hj distinct
  · intro lost
    obtain ⟨j, hj, rest⟩ := h.freed (frees_eq ▸ lost)
    exact ⟨j, List.mem_cons_of_mem i hj, rest⟩
  · intro none j hj active
    obtain rfl | hj := List.mem_cons.mp hj
    · simp [is_idle] at active
    · exact h.missed none j hj active

/-- The pass ends at a request that is complete. -/
theorem hit (active : idle (mem (base + i)) = false)
    (is_ready : ready W.tick (mem (base + i)) = true) (status : Status) :
    Scanned base count inactive (i :: js) mem W
      ⟨true, some i, status, Function.update mem (base + i) (test W.tick (mem (base + i))).handle,
        (test W.tick (mem (base + i))).world⟩ := by
  obtain ⟨ended, type, complete⟩ := test_ready active is_ready
  have other (j : ℕ) (distinct : j ≠ i) :
      Function.update mem (base + i) (test W.tick (mem (base + i))).handle (base + j) = mem (base + j) :=
    Function.update_of_ne (fun eq => distinct (Nat.add_left_cancel eq)) _ _
  constructor
  · exact (World.Later.tick W).trans (.test _ _)
  · intro k distinct
    exact Function.update_of_ne (distinct i List.mem_cons_self) _ _
  · simp [completes, active, is_ready]
  · intro k hk
    cases hk
    refine ⟨rfl, List.mem_cons_self, active, ?_, ?_, ?_⟩
    · dsimp only
      rwa [Function.update_self]
    · dsimp only
      rwa [Function.update_self]
    · intro counted
      dsimp only
      rw [Function.update_self]
      exact complete ((World.Later.tick W).counted counted)
  · simp
  · intro j _ distinct
    exact .inl (.inl (other j fun eq => distinct (eq ▸ rfl)))
  · intro _ j _ distinct
    exact .inl (other j fun eq => distinct (eq ▸ rfl))
  · simp [frees, active, is_ready]
  · simp

/-- The pass goes on after a request that is not complete. -/
theorem miss (fresh : i ∉ js) (active : idle (mem (base + i)) = false)
    (not_ready : ready W.tick (mem (base + i)) = false)
    (h : Scanned base count inactive js
      (Function.update mem (base + i) (test W.tick (mem (base + i))).handle)
      (test W.tick (mem (base + i))).world s) :
    Scanned base count inactive (i :: js) mem W s := by
  have later : W.Later (test W.tick (mem (base + i))).world := (World.Later.tick W).trans (.test _ _)
  have distinct (j : ℕ) (hj : j ∈ js) : base + j ≠ base + i := by
    intro eq
    cases Nat.add_left_cancel eq
    exact fresh hj
  have other (j : ℕ) (hj : j ∈ js) :
      Function.update mem (base + i) (test W.tick (mem (base + i))).handle (base + j) = mem (base + j) :=
    Function.update_of_ne (distinct j hj) _ _
  have same : s.mem (base + i) = (test W.tick (mem (base + i))).handle := by
    rw [h.outside _ fun k hk eq => distinct k hk eq.symm, Function.update_self]
  obtain ⟨-, outcome⟩ := test_not_ready active not_ready
  constructor
  · exact later.trans h.later
  · intro k distinct
    rw [h.outside k fun j hj => distinct j (List.mem_cons_of_mem i hj),
      Function.update_of_ne (distinct i List.mem_cons_self)]
  · rw [h.index, completes_congr other]
    simp [completes, active, not_ready]
  · intro k hk
    obtain ⟨flag, member, was_active, ended, type, complete⟩ := h.found k hk
    rw [other k member] at was_active type complete
    exact ⟨flag, List.mem_cons_of_mem i member, was_active, ended, type,
      fun counted => complete (later.counted counted)⟩
  · intro none
    rw [h.flag none, List.countP_cons, active, if_neg Bool.false_ne_true, Nat.add_zero]
    rw [List.countP_congr fun j hj => by rw [other j hj]]
  · intro j hj distinct
    obtain rfl | hj := List.mem_cons.mp hj
    · rw [same]
      obtain ⟨transient, gone⟩ | ⟨_, kept⟩ := outcome
      · exact .inr ⟨active, transient, gone⟩
      · exact .inl kept
    · simpa only [other j hj] using h.others j hj distinct
  · intro safe j hj distinct
    simp only [frees, active, not_ready, Bool.not_false, Bool.true_and, Bool.false_eq_true, if_false,
      Bool.or_eq_false_iff, Bool.not_eq_false'] at safe
    obtain rfl | hj := List.mem_cons.mp hj
    · rw [same]
      obtain ⟨transient, _⟩ | ⟨_, kept⟩ := outcome
      · simp [transient] at safe
      · exact kept
    · have := h.kept (by rw [frees_congr other]; exact safe.2) j hj distinct
      rwa [other j hj] at this
  · intro lost
    simp only [frees, active, not_ready, Bool.not_false, Bool.true_and, Bool.false_eq_true, if_false,
      Bool.or_eq_true, Bool.not_eq_true'] at lost
    obtain transient | lost := lost
    · refine ⟨i, List.mem_cons_self, ?_, active, transient, ?_⟩
      · intro hit
        exact fresh (h.found i hit).2.1
      · obtain ⟨_, gone⟩ | ⟨stays, _⟩ := outcome
        · rw [same, gone]
        · simp [stays] at transient
    · obtain ⟨j, hj, rest⟩ := h.freed (by rw [frees_congr other]; exact lost)
      rw [other j hj] at rest
      exact ⟨j, List.mem_cons_of_mem i hj, rest⟩
  · intro none j hj was_active transient
    obtain rfl | hj := List.mem_cons.mp hj
    · obtain ⟨_, gone⟩ | ⟨stays, _⟩ := outcome
      · rw [same, gone]
      · simp [stays] at transient
    · exact h.missed none j hj (by rwa [other j hj]) (by rwa [other j hj])

end Scanned

theorem scan_scanned (nodup : js.Nodup) :
    Scanned base count inactive js mem W (scan base count js inactive mem W) := by
  induction js generalizing inactive mem W with
  | nil => exact .nil base count inactive mem W
  | cons i rest ih =>
    obtain ⟨fresh, nodup⟩ := List.nodup_cons.mp nodup
    rw [scan]
    cases is_idle : idle (mem (base + i)) with
    | true => exact .skip fresh is_idle (ih nodup)
    | false =>
      rw [if_neg Bool.false_ne_true]
      simp only [test_flag is_idle]
      cases is_ready : ready W.tick (mem (base + i)) with
      | true => exact .hit is_idle is_ready _
      | false =>
        simp only [← (test_not_ready is_idle is_ready).1]
        exact .miss fresh is_idle is_ready (ih nodup)

/-- A pass that ends at a request makes no difference to the elements behind it. -/
theorem scan_take (n : ℕ) (found : (scan base count (js.take n) inactive mem W).index ≠ none) :
    scan base count (js.take n) inactive mem W = scan base count js inactive mem W := by
  induction js generalizing n inactive mem W with
  | nil => rw [List.take_nil]
  | cons i rest ih =>
    cases n with
    | zero => exact absurd rfl found
    | succ n =>
      rw [List.take_succ_cons, scan] at found ⊢
      rw [scan]
      cases is_idle : idle (mem (base + i)) with
      | true =>
        rw [is_idle, if_pos rfl] at found
        exact ih n found
      | false =>
        rw [is_idle, if_neg Bool.false_ne_true] at found
        rw [if_neg Bool.false_ne_true, if_neg Bool.false_ne_true]
        dsimp only at found ⊢
        split
        · rfl
        · rename_i unfinished
          rw [if_neg unfinished] at found
          exact ih n found

/-- A call on a nonempty array makes one pass over it, unless the index overflows. -/
theorem testany_eq {rand : ℕ} (nonempty : count ≠ 0) (mem : Memory ω) (W : World ω κ) :
    testany base count rand mem W =
      if overflows base count (rand % count) mem W then .error .overflow
      else .ok (scan base count (order count (rand % count)) 0 mem W) := by
  rw [testany, if_neg nonempty]
  dsimp only
  have nodup := order_nodup count (rand % count)
  have pass := @scan_scanned _ _ _ _ base count 0 _ mem W
    (nodup.sublist (List.take_sublist (2147483648 - rand % count) _))
  have index := pass.index
  unfold overflows
  by_cases far : 2147483648 < rand % count + count
  · cases hit : completes base mem ((order count (rand % count)).take (2147483648 - rand % count)) W with
    | true =>
      have found : (scan base count ((order count (rand % count)).take (2147483648 - rand % count)) 0 mem W).index ≠
          none := fun none => by simp [none, hit] at index
      rw [if_neg fun both => found both.1, scan_take _ found]
      simp
    | false =>
      rw [hit, Option.isSome_eq_false_iff, Option.isNone_iff_eq_none] at index
      rw [if_pos ⟨index, far⟩]
      simp [far]
  · have all : (order count (rand % count)).take (2147483648 - rand % count) = order count (rand % count) :=
      List.take_of_length_le (by rw [order_length]; omega)
    rw [if_neg fun both => far both.2, all]
    simp [far]

/-- A call that returns has made one pass over the array. -/
theorem testany_returned {rand : ℕ} (returns : testany base count rand mem W = .ok s) :
    count ≠ 0 ∧ overflows base count (rand % count) mem W = false ∧
      s = scan base count (order count (rand % count)) 0 mem W := by
  by_cases nonempty : count = 0
  · simp [testany, nonempty] at returns
  · rw [testany_eq nonempty] at returns
    split at returns
    · contradiction
    · rename_i inside
      exact ⟨nonempty, by simpa using inside, (Except.ok.inj returns).symm⟩

theorem overflows_of_le {r : ℕ} (near : r + count ≤ 2147483648) (mem : Memory ω) (W : World ω κ) :
    overflows base count r mem W = false := by
  simp [overflows, near]

end FoMPI.Req
