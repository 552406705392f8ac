import FoMPI.Mpitypes.Pieces

/-!
# The rule for `Segment_manipulate`

From any point of a walk, and whatever the piece functions make of the pieces, they are given
the bytes of the datatype in the order of its stream, up to the end of the range or to where a
piece function stops.
-/
namespace FoMPI.Mpitypes
open FoMPI.Foundation

variable {P : Type}

/-- How many bytes are left in front of `last`, in whole elements. -/
def Segment.room (s : Segment) (last : ℤ) (size : ℕ) : ℕ :=
  if last = ignoreLast then s.left.length else min s.left.length ((last - s.streamOff).toNat / size * size)

/-- The range does not end in front of the walk. -/
def Segment.Ahead (s : Segment) (last : ℤ) : Prop := last = ignoreLast ∨ s.streamOff ≤ last

/-- The walk has gone on by `k` bytes. -/
structure Moved (d : Dataloop) (s t : Segment) (k : ℕ) : Prop where
  walks : t.Walks d
  ptr : t.ptr = s.ptr
  left : t.left = s.left.drop k
  streamOff : t.streamOff = s.streamOff + k
  work : t.work ≤ s.work

section Room
variable {s t : Segment} {last : ℤ} {size n k : ℕ} {d : Dataloop}

theorem Segment.room_le : s.room last size ≤ s.left.length := by
  unfold Segment.room
  split
  · exact le_rfl
  · exact min_le_left _ _

theorem room_of_uncut (pos : 0 < size) (within : n * size ≤ s.left.length)
    (uncut : ¬cut last s.streamOff size n) : n * size ≤ s.room last size := by
  unfold Segment.room
  split
  · exact within
  · rename_i ends
    have reach : s.streamOff + n * size ≤ last := not_lt.mp fun lt => uncut ⟨ends, lt⟩
    have cast : ((n * size : ℕ) : ℤ) = n * size := Nat.cast_mul _ _
    have long : n * size ≤ (last - s.streamOff).toNat := by omega
    refine le_min within (Nat.mul_le_mul_right size ?_)
    rwa [Nat.le_div_iff_mul_le pos]

theorem room_of_cut (pos : 0 < size) (ahead : s.Ahead last) (within : n * size ≤ s.left.length)
    (cuts : cut last s.streamOff size n) : ∃ m : ℕ, (last - s.streamOff).tdiv size = m ∧ m < n ∧
      m * size = s.room last size := by
  obtain ⟨ends, lt⟩ := cuts
  have reach : s.streamOff ≤ last := ahead.resolve_left ends
  have whole : ((last - s.streamOff).toNat : ℤ) = last - s.streamOff := Int.toNat_of_nonneg (by omega)
  have cast : ((n * size : ℕ) : ℤ) = n * size := Nat.cast_mul _ _
  have short : (last - s.streamOff).toNat / size < n := by
    rw [Nat.div_lt_iff_lt_mul pos]
    omega
  refine ⟨(last - s.streamOff).toNat / size, ?_, short, ?_⟩
  · rw [Int.tdiv_eq_ediv_of_nonneg (by omega), Int.natCast_div, whole]
  · rw [Segment.room, if_neg ends]
    exact (min_eq_right ((Nat.mul_le_mul_right size short.le).trans within)).symm

theorem Moved.room (moved : Moved d s t k) (dvd : size ∣ k) (ahead : s.Ahead last) (le : k ≤ s.room last size) :
    t.room last size = s.room last size - k ∧ t.Ahead last := by
  obtain ⟨m, rfl⟩ := dvd
  unfold Segment.room Segment.Ahead at *
  rw [moved.left, moved.streamOff, List.length_drop]
  by_cases ends : last = ignoreLast
  · simp [ends]
  · rw [if_neg ends] at le ⊢
    rw [if_neg ends]
    have reach : s.streamOff ≤ last := ahead.resolve_left ends
    obtain ⟨-, le⟩ := le_min_iff.mp le
    have floor := Nat.div_mul_le_self (last - s.streamOff).toNat size
    have less : (last - (s.streamOff + (size * m : ℕ))).toNat = (last - s.streamOff).toNat - size * m := by omega
    rw [less, Nat.sub_mul_div, Nat.sub_mul, mul_comm m size]
    exact ⟨by omega, .inr (by omega)⟩

theorem Moved.refl (walks : s.Walks d) : Moved d s s 0 := ⟨walks, rfl, rfl, by simp, le_rfl⟩

theorem Moved.trans {u : Segment} {j : ℕ} (first : Moved d s t j) (second : Moved d t u k) : Moved d s u (j + k) where
  walks := second.walks
  ptr := second.ptr.trans first.ptr
  left := by rw [second.left, first.left, List.drop_drop]
  streamOff := by
    rw [second.streamOff, first.streamOff]
    push_cast
    ring
  work := second.work.trans first.work

end Room

section Leaf
variable {s : Segment} {d : Dataloop} {sp size m : ℕ} {l : LoopParams} {extent : ℤ}

theorem Segment.length_left (here : s.curSp = some sp) :
    s.left.length = (s.stackelm sp).rest.length + (leftOuter s.stackelm sp).length := by
  rw [s.left_of_curSp here, List.length_map, List.length_append]

/-- A leaf goes on in its block, in another block, or in the loop outside. -/
theorem consume_spec (sound : l.Sound) (pos : 0 < size) (outer : Outer s.stackelm d (.final l size extent) sp)
    (leaf : (s.stackelm sp).AtLeaf l size extent) (here : s.curSp = some sp) (p : P) (exit : Bool)
    (start : (s.stackelm sp).curblock ≤ m → m = (s.stackelm sp).curblock ∨
      (s.stackelm sp).curblock = l.blocksize (s.stackelm sp).done)
    (within : m * size ≤ (s.stackelm sp).rest.length) :
    ∃ t r, s.consume sp p m exit = some (t, p, r) ∧ Moved d s t (m * size) ∧
      (r = false → exit = false ∧ t.curSp ≠ none ∧ t.work < s.work) ∧
      (r = true → exit = true ∨ m < (s.stackelm sp).curblock ∨ t.left = []) := by
  have elSize : (s.stackelm sp).loopP.elSize = size := by rw [leaf.loaded.loop]; rfl
  have walks : s.Walks d := by
    unfold Segment.Walks
    rw [here]
    exact ⟨_, outer, leaf⟩
  have back : s.left.drop (m * size) =
      ((s.stackelm sp).rest.drop (m * size) ++ leftOuter s.stackelm sp).map (s.ptr + ·) := by
    rw [s.left_of_curSp here, ← List.map_drop, List.drop_append_of_le_length within]
  have off : s.streamOff + m * size = s.streamOff + ((m * size : ℕ) : ℤ) := by push_cast; ring
  unfold Segment.consume
  dsimp only
  rw [elSize]
  by_cases zero : m = 0
  · subst zero
    rw [if_pos rfl]
    refine ⟨_, true, rfl, ?_, by simp, fun _ => .inr (.inl leaf.block)⟩
    simpa [← here] using Moved.refl walks
  have some_blocks : 0 < m * size := Nat.mul_pos (Nat.pos_of_ne_zero zero) pos
  rw [if_neg zero]
  have work_here : (s.stackelm sp).work = (s.stackelm sp).rest.length := leaf.work_eq
  by_cases inside : m < (s.stackelm sp).curblock
  · obtain ⟨leaf', rest⟩ := leaf.inBlock inside
    rw [if_pos inside]
    refine ⟨_, true, rfl, ⟨?_, rfl, ?_, off, ?_⟩, by simp, fun _ => .inr (.inl inside)⟩
    · unfold Segment.Walks
      refine ⟨_, outer.congr fun j lt => Function.update_of_ne lt.ne _ _, ?_⟩
      simpa [Current, Segment.set] using leaf'
    · rw [back, ← rest]
      simp only [Segment.left, Segment.set, Function.update_self]
      rw [leftOuter_congr fun j lt => Function.update_of_ne lt.ne _ _]
    · rw [s.work_of_curSp here, work_here]
      simp only [Segment.work, Segment.set, Function.update_self]
      rw [workOuter_congr fun j lt => Function.update_of_ne lt.ne _ _, leaf'.work_eq, rest, List.length_drop]
      omega
  · rw [if_neg inside]
    have ge := not_lt.mp inside
    obtain ⟨e, popped, run, last, more⟩ := leaf.advance_spec sound pos ge (start ge) (leaf.length_rest ▸ within)
    rw [run, Option.map_some]
    refine ⟨_, _, rfl, ?_⟩
    have others (j : ℕ) (lt : j < sp) : Function.update s.stackelm sp e j = s.stackelm j :=
      Function.update_of_ne lt.ne _ _
    have outer' : Outer (Function.update s.stackelm sp e) d (.final l size extent) sp := outer.congr others
    cases popped with
    | true =>
      obtain ⟨loaded, rest⟩ := last rfl
      have idle : Idle (Function.update s.stackelm sp e) (.final l size extent) sp := by
        rw [Idle, Function.update_self]
        exact loaded
      obtain ⟨walks', left, work⟩ := pop_spec
        (s := ⟨s.ptr, s.streamOff + m * size, below sp, Function.update s.stackelm sp e⟩) outer' idle rfl
      have less : workOuter (Function.update s.stackelm sp e) sp < s.work := by
        rw [s.work_of_curSp here, work_here, workOuter_congr others]
        omega
      refine ⟨⟨walks', rfl, ?_, off, work.le.trans less.le⟩, fun more => ?_, fun stops => ?_⟩
      · rw [back, rest, List.nil_append, ← leftOuter_congr others]
        exact left
      · obtain ⟨no_exit, goes_on⟩ := (Bool.or_eq_false_iff).mp more
        exact ⟨no_exit, fun none => Bool.false_ne_true (goes_on.symm.trans (Option.isNone_iff_eq_none.mpr none)),
          work.trans_lt less⟩
      · obtain exit | ended := (Bool.or_eq_true_iff).mp stops
        · exact .inl exit
        · have nowhere : below sp = none := Option.isNone_iff_eq_none.mp ended
          exact .inr (.inr (by simp [Segment.left, nowhere]))
    | false =>
      obtain ⟨leaf', rest⟩ := more rfl
      have less : e.work + workOuter (Function.update s.stackelm sp e) sp < s.work := by
        rw [s.work_of_curSp here, work_here, workOuter_congr others, leaf'.work_eq, rest, List.length_drop]
        omega
      have work : ({ s.set sp e with streamOff := s.streamOff + m * size, curSp := some sp } : Segment).work <
          s.work := by
        simpa only [Segment.work, Segment.set, Function.update_self] using less
      refine ⟨⟨?_, rfl, ?_, off, work.le⟩, fun more => ⟨by simpa using more, by simp, work⟩, fun stops =>
        .inl (by simpa using stops)⟩
      · refine ⟨_, outer', ?_⟩
        rw [Current]
        simpa [Segment.set] using leaf'
      · rw [back, ← rest]
        simp only [Segment.left, Segment.set, Bool.false_eq_true, if_false, Function.update_self]
        rw [leftOuter_congr others]

end Leaf

section Iterations
variable {fns : PieceFns P} {l : LoopParams} {size : ℕ} {A : Bool → P → List ℤ → Prop} {E : P → List ℤ → ℤ → Prop}
  {s t : Segment} {d : Dataloop} {last : ℤ} {p : P} {done : List ℤ} {c : Bool} {sp : ℕ}

/-- How a walk that returns has ended: at the end of the range, or in front of a byte. -/
def Ends (A : Bool → P → List ℤ → Prop) (E : P → List ℤ → ℤ → Prop) (done left : List ℤ) (room k : ℕ) (p : P) : Prop :=
  (k = room ∧ A true p (done ++ left.take k) ∧ (k = left.length → A false p (done ++ left.take k))) ∨
    (k < room ∧ ∃ x rest, left.drop k = x :: rest ∧ E p (done ++ left.take k) x)

/-- The walk is in front of the end of the range, or nothing fits in front of it. -/
def Tight (s : Segment) (last : ℤ) (size : ℕ) (c : Bool) : Prop := c = true → s.room last size = 0 ∧ s.left ≠ []

theorem Tight.start : Tight s last size false := by simp [Tight]

/-- What an iteration does. -/
structure Iterated (A : Bool → P → List ℤ → Prop) (E : P → List ℤ → ℤ → Prop) (d : Dataloop) (last : ℤ) (size : ℕ)
    (done : List ℤ) (s t : Segment) (p : P) (returned : Bool) (k : ℕ) : Prop where
  moved : Moved d s t k
  whole : size ∣ k
  within : k ≤ s.room last size
  goes_on : returned = false → t.work < s.work ∧ t.curSp ≠ none ∧
    ∃ c, A c p (done ++ s.left.take k) ∧ Tight t last size c
  ends : returned = true → Ends A E done s.left (s.room last size) k p

theorem Segment.leaf_of_cut {m : ℕ} (elSize : (s.stackelm sp).loopP.elSize = size)
    (cuts : cut last s.streamOff size (fns.choose (s.stackelm sp)).2) (quotient : (last - s.streamOff).tdiv size = m) :
    s.leaf fns last sp p = if m = 0 then some ({ s with curSp := some sp }, p, true)
      else (fns.call (fns.choose (s.stackelm sp)).1 m (s.stackelm sp) s.ptr p).bind fun (p, m, exit) =>
          s.consume sp p m exit := by
  unfold Segment.leaf
  dsimp only
  rw [elSize, if_pos cuts, quotient, if_neg (Int.not_lt.mpr (Int.natCast_nonneg m)), Int.toNat_natCast]
  by_cases zero : m = 0
  · rw [if_pos zero, if_pos ⟨cuts, by rw [zero]; rfl⟩]
  · rw [if_neg zero, if_neg fun both => zero (Int.natCast_eq_zero.mp both.2)]

theorem Segment.leaf_of_uncut (elSize : (s.stackelm sp).loopP.elSize = size)
    (cuts : ¬cut last s.streamOff size (fns.choose (s.stackelm sp)).2) :
    s.leaf fns last sp p = (fns.call (fns.choose (s.stackelm sp)).1 (fns.choose (s.stackelm sp)).2
      (s.stackelm sp) s.ptr p).bind
      fun (p, m, exit) => s.consume sp p m exit := by
  unfold Segment.leaf
  dsimp only
  rw [elSize, if_neg cuts, if_neg fun both =>
    cuts both.1, if_neg (Int.not_lt.mpr (Int.natCast_nonneg _)), Int.toNat_natCast]

theorem leaf_spec {extent : ℤ} (sound : l.Sound) (pos : 0 < size) (serves : Serves fns l size A E s.ptr)
    (outer : Outer s.stackelm d (.final l size extent) sp) (leaf : (s.stackelm sp).AtLeaf l size extent)
    (here : s.curSp = some sp) (ahead : s.Ahead last) (acc : A c p done) (tight : Tight s last size c) :
    ∃ t p' returned k, s.leaf fns last sp p = some (t, p', returned) ∧
      Iterated A E d last size done s t p' returned k := by
  have chosen : Chosen fns (s.stackelm sp) l size A E s.ptr := leaf.chosen sound pos serves
  have elSize : (s.stackelm sp).loopP.elSize = size := by rw [leaf.loaded.loop]; rfl
  have some_blocks : 0 < (fns.choose (s.stackelm sp)).2 := leaf.block.trans_le chosen.block
  have length := s.length_left here
  have within : (fns.choose (s.stackelm sp)).2 * size ≤ s.left.length := by
    have := chosen.within
    omega
  have some_left : s.left ≠ [] := by
    have long : 0 < (fns.choose (s.stackelm sp)).2 * size := Nat.mul_pos some_blocks pos
    exact List.ne_nil_of_length_pos (long.trans_le within)
  have start (m : ℕ) (le : m ≤ (fns.choose (s.stackelm sp)).2) (ge : (s.stackelm sp).curblock ≤ m) :
      m = (s.stackelm sp).curblock ∨ (s.stackelm sp).curblock = l.blocksize (s.stackelm sp).done := by
    obtain same | whole := chosen.start
    · exact .inl (le_antisymm (le.trans_eq same) ge)
    · exact .inr whole
  have front {k : ℕ} (le : k ≤ (s.stackelm sp).rest.length) :
      ((s.stackelm sp).rest.map (s.ptr + ·)).take k = s.left.take k := by
    rw [s.left_of_curSp here, List.map_append, List.take_append_of_le_length (by simpa using le)]
  by_cases cuts : cut last s.streamOff size (fns.choose (s.stackelm sp)).2
  · obtain ⟨m, quotient, lt, room⟩ := room_of_cut pos ahead within cuts
    rw [s.leaf_of_cut elSize cuts quotient]
    by_cases zero : m = 0
    · -- the range ends in front of the next element
      rw [if_pos zero]
      refine ⟨_, p, true, 0, rfl, ⟨?_, dvd_zero _, Nat.zero_le _, by simp, fun _ => .inl ⟨?_, ?_, ?_⟩⟩⟩
      · have walks : s.Walks d := by
          unfold Segment.Walks
          rw [here]
          exact ⟨_, outer, leaf⟩
        simpa [← here] using Moved.refl walks
      · rw [← room, zero, zero_mul]
      · simp only [List.take_zero, List.append_nil]
        cases c with
        | true => exact acc
        | false => exact serves.weaken p done acc
      · intro all
        exact absurd (List.eq_nil_of_length_eq_zero all.symm) some_left
    · -- the piece is cut off
      obtain rfl : c = false := by
        cases c with
        | false => rfl
        | true =>
          have none := (tight rfl).1
          rw [← room] at none
          exact absurd ((Nat.mul_eq_zero.mp none).resolve_right pos.ne') zero
      rw [if_neg zero]
      obtain ⟨p', m', exit, run, served⟩ := chosen.served true m p done (Nat.pos_of_ne_zero zero) lt.le (by simp) acc
      have le : m' ≤ m := by
        cases exit with
        | false => exact (served.goes_on rfl).1.le
        | true => exact (served.stops rfl).1.le
      have within' : m' * size < (s.stackelm sp).rest.length :=
        ((Nat.mul_lt_mul_right pos).mpr (le.trans_lt lt)).trans_le chosen.within
      have short : m' * size < s.left.length := within'.trans_le (length ▸ Nat.le_add_right _ _)
      obtain ⟨t, returned, moves, moved, more, stops⟩ :=
        consume_spec sound pos outer leaf here p' exit (start m' (le.trans lt.le)) within'.le
      rw [run, Option.bind_some]
      refine ⟨t, p', returned, m' * size, moves, ⟨moved, Dvd.intro_left _ rfl, ?_, fun goes_on => ?_, fun ended => ?_⟩⟩
      · rw [← room]
        exact Nat.mul_le_mul_right size le
      · obtain ⟨no_exit, nonempty, less⟩ := more goes_on
        obtain ⟨rfl, acc'⟩ := served.goes_on no_exit
        rw [front within'.le] at acc'
        refine ⟨less, nonempty, true, acc', fun _ => ⟨?_, ?_⟩⟩
        · rw [(moved.room (Dvd.intro_left _ rfl) ahead room.le).1, room, Nat.sub_self]
        · rw [moved.left]
          exact List.ne_nil_of_length_pos (by rw [List.length_drop]; omega)
      · cases exit with
        | true =>
          obtain ⟨lt', x, rest, next, stopped⟩ := served.stops rfl
          have within'' : m * size ≤ (s.stackelm sp).rest.length :=
            (Nat.mul_le_mul_right size lt.le).trans chosen.within
          rw [front within''] at next stopped
          refine .inr ⟨?_, x, ?_⟩
          · rw [← room]
            exact (Nat.mul_lt_mul_right pos).mpr lt'
          · rw [List.take_take, min_eq_left (Nat.mul_le_mul_right size le)] at stopped
            refine ⟨rest ++ s.left.drop (m * size), ?_, stopped⟩
            rw [← List.cons_append, ← next, ← List.drop_append_of_le_length, List.take_append_drop]
            rw [List.length_take]
            have := Nat.mul_le_mul_right size le
            omega
        | false =>
          obtain ⟨rfl, acc'⟩ := served.goes_on rfl
          rw [front within'.le] at acc'
          exact .inl ⟨room, acc', fun all => absurd all short.ne⟩
  · -- the whole piece
    obtain rfl : c = false := by
      cases c with
      | false => rfl
      | true =>
        have none := (tight rfl).1
        have some_room := room_of_uncut pos within cuts
        have long : 0 < (fns.choose (s.stackelm sp)).2 * size := Nat.mul_pos some_blocks pos
        omega
    have room := room_of_uncut pos within cuts
    rw [s.leaf_of_uncut elSize cuts]
    obtain ⟨p', m, exit, run, served⟩ := chosen.served false _ p done some_blocks le_rfl (fun _ => rfl) acc
    have le : m ≤ (fns.choose (s.stackelm sp)).2 := by
      cases exit with
      | false => exact (served.goes_on rfl).1.le
      | true => exact (served.stops rfl).1.le
    have within' : m * size ≤ (s.stackelm sp).rest.length := (Nat.mul_le_mul_right size le).trans chosen.within
    have le_room : m * size ≤ s.room last size := (Nat.mul_le_mul_right size le).trans room
    obtain ⟨t, returned, moves, moved, more, stops⟩ :=
      consume_spec sound pos outer leaf here p' exit (start m le) within'
    rw [run, Option.bind_some]
    refine ⟨t, p', returned, m * size, moves,
      ⟨moved, Dvd.intro_left _ rfl, le_room, fun goes_on => ?_, fun ended => ?_⟩⟩
    · obtain ⟨no_exit, nonempty, less⟩ := more goes_on
      obtain ⟨rfl, acc'⟩ := served.goes_on no_exit
      rw [front within'] at acc'
      exact ⟨less, nonempty, false, acc', by simp [Tight]⟩
    · cases exit with
      | true =>
        obtain ⟨lt, x, rest, next, stopped⟩ := served.stops rfl
        rw [front chosen.within] at next stopped
        refine .inr ⟨((Nat.mul_lt_mul_right pos).mpr lt).trans_le room, x, ?_⟩
        rw [List.take_take, min_eq_left (Nat.mul_le_mul_right size le)] at stopped
        refine ⟨rest ++ s.left.drop ((fns.choose (s.stackelm sp)).2 * size), ?_, stopped⟩
        rw [← List.cons_append, ← next, ← List.drop_append_of_le_length, List.take_append_drop]
        rw [List.length_take]
        have := Nat.mul_le_mul_right size le
        omega
      | false =>
        obtain ⟨rfl, acc'⟩ := served.goes_on rfl
        rw [front within'] at acc'
        have finished : t.left = [] := by
          obtain exit | inside | none := stops ended
          · contradiction
          · exact absurd inside (not_lt.mpr chosen.block)
          · exact none
        have all := congrArg List.length (finished.symm.trans moved.left)
        rw [List.length_nil, List.length_drop] at all
        refine .inl ⟨?_, serves.weaken _ _ acc', fun _ => acc'⟩
        have le : s.room last size ≤ s.left.length := s.room_le
        omega

/-- An iteration that moves on the stack only. -/
theorem Iterated.of_stack {returned : Bool} (weaken : ∀ p done, A false p done → A true p done) (acc : A c p done)
    (tight : Tight s last size c) (moved : t.Walks d ∧ t.left = s.left ∧ t.work < s.work) (ptr : t.ptr = s.ptr)
    (streamOff : t.streamOff = s.streamOff) (returns : returned = t.curSp.isNone) :
    Iterated A E d last size done s t p returned 0 := by
  obtain ⟨walks, left, work⟩ := moved
  refine ⟨⟨walks, ptr, left, by simpa using streamOff, work.le⟩, dvd_zero _, Nat.zero_le _, fun goes_on =>
    ?_, fun ended => ?_⟩
  · refine ⟨work, fun none => ?_, c, by simpa using acc, fun strict => ?_⟩
    · rw [goes_on, none] at returns
      exact Bool.false_ne_true returns
    · have same : t.room last size = s.room last size := by
        unfold Segment.room
        rw [left, streamOff]
      rw [same, left]
      exact tight strict
  · have nowhere : t.curSp = none := Option.isNone_iff_eq_none.mp (returns.symm.trans ended)
    have finished : s.left = [] := by rw [← left, Segment.left, nowhere]
    obtain rfl : c = false := by
      cases c with
      | false => rfl
      | true => exact absurd finished (tight rfl).2
    have le : s.room last size ≤ s.left.length := s.room_le
    rw [finished, List.length_nil] at le
    simp only [Ends, finished, List.take_nil, List.append_nil]
    exact .inl ⟨(Nat.le_zero.mp le).symm, weaken p done acc, fun _ => acc⟩

theorem iterate_spec (sound : d.Sound) (narrow : d.Narrow) (leaf : d.leaf = (l, size)) (pos : 0 < size)
    (serves : Serves fns l size A E s.ptr)
    (walks : s.Walks d) (here : s.curSp = some sp) (ahead : s.Ahead last) (acc : A c p done)
    (tight : Tight s last size c) :
    ∃ t p' returned k, s.iterate fns last p = some (t, p', returned) ∧
      Iterated A E d last size done s t p' returned k := by
  unfold Segment.Walks at walks
  rw [here] at walks
  obtain ⟨inner, outer, current⟩ := walks
  unfold Segment.iterate
  rw [here]
  dsimp only
  cases inner with
  | final l' size' extent =>
    obtain ⟨rfl, rfl⟩ : l' = l ∧ size' = size := by
      have same := outer.leaf.trans leaf
      exact ⟨congrArg Prod.fst same, congrArg Prod.snd same⟩
    have at_leaf : (s.stackelm sp).AtLeaf l' size' extent := current
    have is_final : (s.stackelm sp).loopP.isFinal = true := by rw [at_leaf.loaded.loop]; rfl
    rw [if_pos is_final, if_neg at_leaf.some_left.ne']
    exact leaf_spec (outer.sound sound).1 pos serves outer at_leaf here ahead acc tight
  | nested l' size' extent inside =>
    have no_final : ¬(s.stackelm sp).loopP.isFinal = true := by rw [current.1.loop]; exact Bool.false_ne_true
    rw [if_neg no_final]
    by_cases zero : (s.stackelm sp).curblock = 0
    · rw [if_pos zero]
      exact ⟨_, p, _, 0, rfl, .of_stack serves.weaken acc tight (end_spec outer current here zero rfl) rfl rfl rfl⟩
    · rw [if_neg zero]
      exact ⟨_, p, false, 0, rfl, .of_stack serves.weaken acc tight
        (push_spec (outer.sound sound).2 (outer.narrow narrow).1 outer current here (Nat.pos_of_ne_zero zero) rfl) rfl
          rfl rfl⟩

/-- What a walk does that returns. -/
structure Walked (A : Bool → P → List ℤ → Prop) (E : P → List ℤ → ℤ → Prop) (d : Dataloop) (last : ℤ) (size : ℕ)
    (done : List ℤ) (s t : Segment) (p : P) (k : ℕ) : Prop where
  moved : Moved d s t k
  whole : size ∣ k
  within : k ≤ s.room last size
  ends : Ends A E done s.left (s.room last size) k p

theorem Ends.append {left : List ℤ} {room j k : ℕ} (le : j ≤ room) (within : room ≤ left.length)
    (ends : Ends A E (done ++ left.take j) (left.drop j) (room - j) k p) : Ends A E done left room (j + k) p := by
  have together : done ++ left.take j ++ (left.drop j).take k = done ++ left.take (j + k) := by
    rw [List.append_assoc, ← List.take_add]
  unfold Ends at *
  rw [together, List.drop_drop, List.length_drop] at ends
  obtain ⟨all, acc, whole⟩ | ⟨lt, stopped⟩ := ends
  · exact .inl ⟨by omega, acc, fun ended => whole (by omega)⟩
  · exact .inr ⟨by omega, stopped⟩

/-- The run of the loop: by induction on the iterations it may take, with what was processed before. -/
theorem loop_spec (sound : d.Sound) (narrow : d.Narrow) (leaf : d.leaf = (l, size))
    (serves : Serves fns l size A E s.ptr) (pos : 0 < size) {fuel : ℕ} (walks : s.Walks d) (here : s.curSp ≠ none)
    (ahead : s.Ahead last) (acc : A c p done) (tight : Tight s last size c) (enough : s.work < fuel) :
    ∃ t p' k, s.loop fns last fuel p = some (t, p') ∧ Walked A E d last size done s t p' k := by
  induction fuel generalizing s p done c with
  | zero => exact absurd enough (Nat.not_lt_zero _)
  | succ fuel ih =>
    obtain ⟨sp, at_sp⟩ := Option.ne_none_iff_exists'.mp here
    obtain ⟨t, p', returned, j, run, once⟩ := iterate_spec sound narrow leaf pos serves walks at_sp ahead acc tight
    rw [Segment.loop, run, Option.bind_some]
    cases returned with
    | true => exact ⟨t, p', j, rfl, once.moved, once.whole, once.within, once.ends rfl⟩
    | false =>
      obtain ⟨less, here', c', acc', tight'⟩ := once.goes_on rfl
      obtain ⟨room, ahead'⟩ := once.moved.room once.whole ahead once.within
      obtain ⟨u, q, k, runs, walked⟩ := ih (once.moved.ptr ▸ serves) once.moved.walks here' ahead' acc' tight'
        (by omega)
      have within := walked.within
      have ends := walked.ends
      have some_room := once.within
      rw [room] at within ends
      rw [once.moved.left] at ends
      exact ⟨u, q, j + k, runs, once.moved.trans walked.moved, dvd_add once.whole walked.whole, by omega,
        ends.append once.within s.room_le⟩

end Iterations

end FoMPI.Mpitypes
