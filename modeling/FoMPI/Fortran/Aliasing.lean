import FoMPI.Fortran.Tables

/-!
# Handles of the Fortran bindings never alias

Free and live indices share out the indices below the size of their table, until a table of
2147483600 slots has to grow: its size is an `int`.
-/
namespace FoMPI.Fortran

open FoMPI.Foundation

section Indices

/-- `n` indices from `a` on. -/
def upFrom (a : ℤ) (n : ℕ) : List ℤ := (List.range n).map fun k : ℕ => a + k

variable {a i : ℤ} {m n : ℕ} {free : List ℤ}

theorem mem_upFrom : i ∈ upFrom a n ↔ a ≤ i ∧ i < a + n := by
  rw [upFrom, List.mem_map]
  constructor
  · rintro ⟨k, inside, rfl⟩
    have := List.mem_range.mp inside
    omega
  · rintro ⟨low, high⟩
    exact ⟨(i - a).toNat, List.mem_range.mpr (by omega), by omega⟩

theorem nodup_upFrom : (upFrom a n).Nodup := List.nodup_range.map fun j k same => by omega

@[simp] theorem length_upFrom : (upFrom a n).length = n := by rw [upFrom, List.length_map, List.length_range]

theorem upFrom_append : upFrom a (m + n) = upFrom a m ++ upFrom (a + m) n := by
  rw [upFrom, List.range_add, List.map_append, List.map_map, upFrom, upFrom]
  congr 2
  funext k
  simp [add_assoc]

theorem upFrom_cons : upFrom a (n + 1) = a :: upFrom (a + 1) n := by
  rw [Nat.add_comm, upFrom_append]
  simp [upFrom]

/-- The loop counts down, so that the list counts up. -/
theorem insertLoop_eq : insertLoop free i n = upFrom (i - n + 1) n ++ free := by
  induction n generalizing i free with
  | zero => rfl
  | succ n ih =>
    have start : i - (n + 1 : ℕ) + 1 = i - 1 - n + 1 := by push_cast; omega
    have last : upFrom (i - 1 - n + 1 + n) 1 = [i] := by
      have top : i - 1 - n + 1 + n = i := by omega
      rw [top, upFrom_cons]
      rfl
    rw [insertLoop, ih, start, upFrom_append, last, List.append_assoc, List.singleton_append]

theorem insertAll_eq {top stop : ℤ} (n : ℕ) (count : top = stop + n) :
    insertAll free top stop = upFrom (stop + 1) n ++ free := by
  subst count
  have steps : (stop + n - stop).toNat = n := by omega
  rw [insertAll, insertLoop_eq, steps]
  congr 2
  omega

end Indices

section Tables

variable {ω ρ : Type} {h : Handles ω} {i : ℤ}

/-- The slots there are: none before the first creation. -/
def Handles.size (h : Handles ω) : ℕ := if h.table.slots.isNone then 0 else h.table.sz.toNat

/-- Fewer handles are live than the largest table has slots. -/
def Handles.Roomy (h : Handles ω) : Prop := h.live.length < 2147483600

structure WellFormed (h : Handles ω) : Prop where
  hundreds : ∃ m : ℕ, h.table.sz = 100 * (m + 1)
  bounded : h.table.sz ≤ 2147483600
  unallocated : h.table.slots = none → h.table.sz = 100
  shared : SharedOut (upFrom 0 h.size) h.table.free h.live

theorem wellFormed_init : WellFormed (⟨.init, []⟩ : Handles ω) where
  hundreds := ⟨0, rfl⟩
  bounded := show (100 : ℤ) ≤ 2147483600 by decide
  unallocated _ := rfl
  shared := ⟨nodup_upFrom, .refl _⟩

@[simp] theorem size_put (left : Option ω) : (h.put i left).size = h.size := by
  simp [Handles.size, Handles.put, Table.put]

theorem WellFormed.put (w : WellFormed h) (left : Option ω) : WellFormed (h.put i left) where
  hundreds := w.hundreds
  bounded := w.bounded
  unallocated null := w.unallocated (by simpa [Handles.put, Table.put] using null)
  shared := by
    rw [size_put]
    exact w.shared

theorem WellFormed.release (w : WellFormed h) (held : i ∈ h.live) : WellFormed (h.release i) where
  hundreds := w.hundreds
  bounded := w.bounded
  unallocated := w.unallocated
  shared := w.shared.giveBack held

/-- The three outcomes of `get_winidx` and `get_reqidx`: the first allocation, the front of the free list, and the
growth of a full table. -/
theorem getIdx_cases (w : WellFormed h) :
    (h.table.slots = none ∧ h.table.sz = 100 ∧ h.table.free = [] ∧ h.live = [] ∧
      h.table.getIdx = (0, ⟨some fun _ => none, 100, upFrom 1 99⟩)) ∨
    (∃ slots i rest, h.table.slots = some slots ∧ h.table.free = i :: rest ∧
      h.table.getIdx = (i, ⟨some slots, h.table.sz, rest⟩)) ∨
    (∃ slots, h.table.slots = some slots ∧ h.table.free = [] ∧ h.live.length = h.size ∧
      h.table.getIdx = (h.table.sz, ⟨some slots, asInt (h.table.sz + 100),
        insertAll [] (asInt (h.table.sz + 100) - 1) h.table.sz⟩)) := by
  cases allocated : h.table.slots with
  | none =>
    have none : h.size = 0 := by simp [Handles.size, allocated]
    have shared := w.shared
    rw [none] at shared
    have empty : h.table.free ++ h.live = [] := shared.perm.eq_nil
    obtain ⟨free, live⟩ := List.append_eq_nil_iff.mp empty
    have sz := w.unallocated allocated
    refine .inl ⟨rfl, sz, free, live, ?_⟩
    rw [Table.getIdx, allocated, free, sz]
    simp only [insertAll_eq 99 (by rfl : (100 - 1 : ℤ) = 0 + (99 : ℕ)), List.append_nil]
    rfl
  | some slots =>
    refine .inr ?_
    cases free : h.table.free with
    | nil =>
      refine .inr ⟨slots, rfl, rfl, ?_, ?_⟩
      · have total := w.shared.length
        rw [free, length_upFrom, List.length_nil, Nat.zero_add] at total
        exact total
      · rw [Table.getIdx, allocated, free]
        rfl
    | cons i rest =>
      have inside : i ∈ upFrom 0 h.size := w.shared.mem_iff.mpr (.inl (free ▸ List.mem_cons_self))
      have real : i ≠ -1 := by
        have := (mem_upFrom.mp inside).1
        omega
      refine .inl ⟨slots, i, rest, rfl, rfl, ?_⟩
      rw [Table.getIdx, allocated, free]
      exact if_neg real

theorem size_of_slots {slots : ℤ → Option ω} (allocated : h.table.slots = some slots) :
    h.size = h.table.sz.toNat := by
  simp [Handles.size, allocated]

/-- A table of fewer than 2147483600 slots grows by 100. -/
theorem grown (w : WellFormed h) (room : h.table.sz < 2147483600) : asInt (h.table.sz + 100) = h.table.sz + 100 := by
  obtain ⟨m, hundreds⟩ := w.hundreds
  exact asInt_eq (by omega) (by omega)

/-- The table and the handles after the index of a creation has been chosen. -/
def Handles.taken (h : Handles ω) : Handles ω where
  table := h.table.getIdx.2
  live := h.table.getIdx.1 :: h.live

theorem WellFormed.taken (w : WellFormed h) (room : h.Roomy) : WellFormed h.taken := by
  obtain ⟨m, hundreds⟩ := w.hundreds
  have bounded := w.bounded
  obtain ⟨_, sz, _, live, result⟩ | ⟨slots, i, rest, allocated, free, result⟩ | ⟨slots, allocated, free, full, result⟩ :=
    getIdx_cases w
  · rw [Handles.taken, result, live]
    have start : SharedOut ([] : List ℤ) [] [] := ⟨List.nodup_nil, .refl _⟩
    exact ⟨⟨0, rfl⟩, (by decide : (100 : ℤ) ≤ 2147483600), fun _ => rfl,
      upFrom_cons ▸ start.grow (upFrom_cons ▸ nodup_upFrom)⟩
  · rw [Handles.taken, result]
    refine ⟨⟨m, hundreds⟩, bounded, fun null => absurd null (by simp), ?_⟩
    have shared := w.shared
    rw [size_of_slots allocated, free] at shared
    exact shared.take
  · have sizeEq := size_of_slots allocated
    have small : h.table.sz < 2147483600 := by
      unfold Handles.Roomy at room
      omega
    rw [Handles.taken, result, grown w small]
    refine ⟨⟨m + 1, ?_⟩, ?_, fun null => absurd null (by simp), ?_⟩
    · push_cast
      omega
    · change h.table.sz + 100 ≤ 2147483600
      omega
    · have next : (0 : ℤ) + h.size = h.table.sz := by omega
      have names : upFrom 0 (h.table.sz + 100).toNat = upFrom 0 h.size ++ h.table.sz :: upFrom (h.table.sz + 1) 99 := by
        have sum : (h.table.sz + 100).toNat = h.size + (99 + 1) := by omega
        rw [sum, upFrom_append, upFrom_cons, next]
      change SharedOut (upFrom 0 (h.table.sz + 100).toNat) (insertAll [] (h.table.sz + 100 - 1) h.table.sz)
        (h.table.sz :: h.live)
      rw [names, insertAll_eq 99 (by push_cast; omega), List.append_nil]
      exact (free ▸ w.shared).grow (names ▸ nodup_upFrom)

theorem WellFormed.create (w : WellFormed h) (room : h.Roomy) (object : ω) : WellFormed (h.create object) :=
  (w.taken room).put _

/-- The next index handed out is below the size of the table and not live. -/
def HandsOut (h : Handles ω) : Prop :=
  0 ≤ h.table.getIdx.1 ∧ h.table.getIdx.1 < h.table.getIdx.2.sz ∧ h.table.getIdx.1 ∉ h.live

theorem WellFormed.handsOut (w : WellFormed h) (room : h.Roomy) : HandsOut h := by
  have next := w.taken room
  obtain ⟨low, high⟩ := mem_upFrom.mp (next.shared.mem_iff.mpr (.inr List.mem_cons_self))
  refine ⟨low, ?_, (List.nodup_cons.mp next.shared.live_nodup).1⟩
  have below : (h.taken.size : ℤ) ≤ h.taken.table.sz := by
    obtain ⟨m, hundreds⟩ := next.hundreds
    unfold Handles.size
    split <;> omega
  change h.table.getIdx.1 < h.taken.table.sz
  omega

/-- In the largest table nothing is free, and the size that it grows to wraps to a negative number. -/
theorem WellFormed.not_handsOut (w : WellFormed h) (full : ¬h.Roomy) : ¬HandsOut h := by
  have bounded := w.bounded
  have total := w.shared.length
  rw [length_upFrom] at total
  unfold Handles.Roomy at full
  have sizeLe : h.size ≤ h.table.sz.toNat := by
    unfold Handles.size
    split <;> omega
  obtain ⟨_, _, _, live, _⟩ | ⟨slots, i, rest, allocated, free, _⟩ | ⟨slots, allocated, free, _, result⟩ :=
    getIdx_cases w
  · rw [live, List.length_nil] at full
    omega
  · rw [free, List.length_cons] at total
    omega
  · intro handed
    have exact : h.table.sz = 2147483600 := by omega
    have behind := handed.2.1
    have wraps : asInt (2147483600 + 100) = -2147483596 := by decide
    rw [result, exact] at behind
    dsimp only at behind
    omega

end Tables

section Runs

variable {ω ρ : Type} {s t : State ω ρ}

/-- Creations are made with room in their table. -/
def roomy (s : State ω ρ) : Action ω ρ → State ω ρ → Prop
  | .winCreate _, _ => s.windows.Roomy
  | .requestCreate _, _ => s.requests.Roomy
  | _, _ => True

structure Inv (s : State ω ρ) : Prop where
  windows : WellFormed s.windows
  requests : WellFormed s.requests

theorem WellFormed.complete {h : Handles ρ} {i : ℤ} (w : WellFormed h) (held : i ∈ h.live) (inspected : Bool)
    (left : Option ρ) : WellFormed (h.complete i inspected left) := by
  unfold Handles.complete
  split
  · exact (w.put left).release held
  · exact w.put left

theorem Inv.step {a : Action ω ρ} (inv : Inv s) (move : Fortran.step s a = some t) (room : roomy s a t) : Inv t := by
  cases a with
  | winCreate win =>
    cases move
    exact ⟨inv.windows.create room win, inv.requests⟩
  | winFree i left =>
    obtain ⟨held, result⟩ := Option.ite_none_right_eq_some.mp move
    cases result
    exact ⟨(inv.windows.put left).release held, inv.requests⟩
  | requestCreate request =>
    cases move
    exact ⟨inv.windows, inv.requests.create room request⟩
  | requestFree i left =>
    obtain ⟨held, result⟩ := Option.ite_none_right_eq_some.mp move
    cases result
    exact ⟨inv.windows, inv.requests.complete held true left⟩
  | wait i success left =>
    obtain ⟨held, result⟩ := Option.ite_none_right_eq_some.mp move
    cases result
    exact ⟨inv.windows, inv.requests.complete held success left⟩
  | test i success flag left =>
    obtain ⟨held, result⟩ := Option.ite_none_right_eq_some.mp move
    cases result
    exact ⟨inv.windows, inv.requests.complete held (success && flag) left⟩

theorem inv_of_reach (run : Reach step roomy State.init s) : Inv s :=
  run.invariant ⟨wellFormed_init, wellFormed_init⟩ fun _ _ _ inv move room => inv.step move room

/-- Free and live indices of a table do not repeat, have nothing in common and are together the
indices below its size. -/
structure NoAlias {ω : Type} (h : Handles ω) : Prop where
  free_nodup : h.table.free.Nodup
  live_nodup : h.live.Nodup
  disjoint : h.table.free.Disjoint h.live
  covers : ∀ i : ℤ, i ∈ h.table.free ∨ i ∈ h.live ↔ 0 ≤ i ∧ i < h.size

theorem WellFormed.noAlias {h : Handles ω} (w : WellFormed h) : NoAlias h where
  free_nodup := w.shared.free_nodup
  live_nodup := w.shared.live_nodup
  disjoint := w.shared.disjoint
  covers i := by rw [← w.shared.mem_iff, mem_upFrom, Int.zero_add]

/-- In every run whose creations find fewer than 2147483600 live handles of their kind, the handles of
windows and of requests never alias; and the next creation hands out a fresh index of
the table exactly if it finds no more. -/
theorem handles_never_alias (run : Reach step roomy State.init s) :
    (NoAlias s.windows ∧ (HandsOut s.windows ↔ s.windows.Roomy)) ∧
      NoAlias s.requests ∧ (HandsOut s.requests ↔ s.requests.Roomy) := by
  obtain ⟨windows, requests⟩ := inv_of_reach run
  refine ⟨⟨windows.noAlias, fun handed => ?_, windows.handsOut⟩, requests.noAlias, fun handed => ?_, requests.handsOut⟩
  · exact not_not.mp fun full => windows.not_handsOut full handed
  · exact not_not.mp fun full => requests.not_handsOut full handed

/-- Requests can be created until 2147483600 are live. -/
theorem reach_requests (n : ℕ) (bound : n ≤ 2147483600) :
    ∃ s : State Unit Unit, Reach step roomy State.init s ∧ s.requests.live.length = n := by
  induction n with
  | zero => exact ⟨_, .refl, rfl⟩
  | succ n ih =>
    obtain ⟨s, run, count⟩ := ih (by omega)
    have room : s.requests.Roomy := by
      unfold Handles.Roomy
      omega
    have move : step s (.requestCreate ()) = some { s with requests := s.requests.create () } := rfl
    exact ⟨_, .tail run move room, congrArg (· + 1) count⟩

theorem handles_never_alias_three : ∃ s : State Unit Unit, s.requests.live.length = 3 ∧ NoAlias s.requests := by
  obtain ⟨s, run, count⟩ := reach_requests 3 (by decide)
  exact ⟨s, count, (handles_never_alias run).2.1⟩

/-- With 2147483600 requests live, the next creation hands out an index that is not below the size
of the table. -/
theorem handles_alias_at_limit :
    ∃ s : State Unit Unit, Reach step always State.init s ∧ ¬HandsOut s.requests := by
  obtain ⟨s, run, count⟩ := reach_requests 2147483600 le_rfl
  refine ⟨s, run.mono fun _ _ _ _ => trivial, (inv_of_reach run).requests.not_handsOut ?_⟩
  unfold Handles.Roomy
  omega

end Runs

end FoMPI.Fortran
