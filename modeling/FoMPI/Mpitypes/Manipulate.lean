import FoMPI.Mpitypes.Rule
import Mathlib.Algebra.Order.BigOperators.Group.List

/-!
# Ranges of the stream

A new segment stands at the beginning of the stream of `count` items. `Segment_manipulate` takes
it to `first` without piece functions and then hands the range to them.
-/
namespace FoMPI.Mpitypes
open FoMPI.Foundation

section Items
variable {l : LoopParams} {extent x o : ℤ} {size : ℕ}

theorem places_add : l.places (x + o) extent = (l.places o extent).map (x + ·) := by
  simp only [LoopParams.places, LoopParams.placesAt, List.map_flatMap, List.map_map]
  congr 1
  funext i
  refine List.map_congr_left fun j _ => ?_
  simp only [Function.comp_apply]
  ring

theorem bytes_add (d : Dataloop) (x o : ℤ) : d.bytes (x + o) = (d.bytes o).map (x + ·) := by
  induction d generalizing o with
  | final l size extent => rw [Dataloop.bytes, Dataloop.bytes, map_bytes_blocks]
  | nested l size extent d ih =>
    rw [Dataloop.bytes, Dataloop.bytes, places_add, List.flatMap_map, List.map_flatMap]
    congr 1
    funext y
    exact ih y

/-- The packed bytes of one item. -/
def Handle.bytes (h : Handle) : List ℤ :=
  match h.loop with
  | none => (Block.mk 0 h.size).bytes
  | some d => d.bytes 0

/-- The packed bytes of `count` items. -/
def Handle.stream (h : Handle) (count : ℕ) : List ℤ :=
  (List.range count).flatMap fun i : ℕ => h.bytes.map fun x => x + i * h.extent

/-- The size of what a leaf is made of. -/
def Handle.elSize (h : Handle) : ℕ :=
  match h.loop with
  | none => h.size
  | some d => d.leaf.2

/-- The size is that of the data, which is not empty. -/
structure Handle.Sound (h : Handle) : Prop where
  intrinsic : h.loop = none → 0 < h.size ∧ h.extent = h.size
  derived : ∀ d, h.loop = some d → d.Sound ∧ (d.bytes 0).length = h.size

/-- Blocks in a row are one block. -/
theorem contiguous_items (count n : ℕ) (o : ℤ) : (Block.mk o (count * n)).bytes =
    (List.range count).flatMap fun i : ℕ => (Block.mk (o + i * (n : ℤ)) n).bytes := by
  induction count with
  | zero => simp [Block.bytes]
  | succ count ih =>
    have split := Block.bytes_joined (a := ⟨o, count * n⟩) (b := ⟨o + count * (n : ℤ), n⟩) (by simp [Block.stop])
    rw [List.range_succ, List.flatMap_append, ← ih, Nat.succ_mul]
    simpa using split

theorem Dataloop.Sound.leaf_pos {d : Dataloop} (sound : d.Sound) : d.leaf.1.Sound ∧ 0 < d.leaf.2 := by
  induction d with
  | final l size extent => exact sound
  | nested l size extent d ih => exact ih sound.2

theorem Dataloop.Sound.bytes_ne_nil {d : Dataloop} (sound : d.Sound) (o : ℤ) : d.bytes o ≠ [] := by
  induction d generalizing o with
  | final l size extent =>
    have some_bytes : 0 < l.blocksize 0 * size := Nat.mul_pos (sound.1.positive 0 sound.1.some_blocks) sound.2
    obtain ⟨k, bytes⟩ : ∃ k, l.blocksize 0 * size = k + 1 := ⟨l.blocksize 0 * size - 1, by omega⟩
    have first : l.blocks o size = ⟨o + l.offset 0, l.blocksize 0 * size⟩ :: _ := blocks_drop sound.1.some_blocks
    rw [Dataloop.bytes, first, bytes_cons, bytes, Block.cons_bytes]
    exact List.cons_ne_nil _ _
  | nested l size extent d ih =>
    intro none
    have first : o + l.offset 0 + (0 : ℕ) * extent ∈ l.places o extent :=
      List.mem_flatMap.mpr ⟨0, List.mem_range.mpr sound.1.some_blocks,
        List.mem_map_of_mem (List.mem_range.mpr (sound.1.positive 0 sound.1.some_blocks))⟩
    exact ih sound.2 _ (List.flatMap_eq_nil_iff.mp none _ first)

section Narrow

theorem length_places_eq : (l.places o extent).length = ((List.range l.count).map l.blocksize).sum := by
  simp [LoopParams.places, LoopParams.placesAt, List.length_flatMap]

theorem LoopParams.Sound.count_le (sound : l.Sound) : l.count ≤ (l.places o extent).length := by
  have each : ∀ n ∈ (List.range l.count).map l.blocksize, 1 ≤ n := by
    intro n mem
    obtain ⟨i, inside, rfl⟩ := List.mem_map.mp mem
    exact sound.positive i (List.mem_range.mp inside)
  rw [length_places_eq]
  simpa using List.length_le_sum_of_one_le _ each

theorem LoopParams.blocksize_le {i : ℕ} (inside : i < l.count) : l.blocksize i ≤ (l.places o extent).length := by
  rw [length_places_eq]
  exact List.le_sum_of_mem (List.mem_map_of_mem (List.mem_range.mpr inside))

/-- The loop inside has as many bytes at each of its places. -/
theorem length_bytes_nested (d : Dataloop) : ((Dataloop.nested l size extent d).bytes o).length =
    (l.places o extent).length * (d.bytes 0).length := by
  have same (x : ℤ) : (d.bytes x).length = (d.bytes 0).length := by
    rw [← add_zero x, bytes_add, List.length_map]
  rw [Dataloop.bytes, List.length_flatMap, List.map_congr_left fun x _ => same x]
  simp

/-- A loop of fewer than `2^31` bytes is narrow, and so are those inside. -/
theorem Dataloop.Sound.narrow {d : Dataloop} (sound : d.Sound) (short : (d.bytes 0).length < 2147483648) :
    d.Narrow := by
  induction d with
  | final l size extent => trivial
  | nested l size extent d ih =>
    rw [length_bytes_nested] at short
    have inner : 0 < (d.bytes 0).length := List.length_pos_of_ne_nil (sound.2.bytes_ne_nil 0)
    have outer : 0 < (l.places 0 extent).length := sound.1.some_blocks.trans_le sound.1.count_le
    have places := (Nat.le_mul_of_pos_right _ inner).trans_lt short
    refine ⟨⟨sound.1.count_le.trans_lt places, fun i inside => ?_⟩, ih sound.2 ?_⟩
    · exact (LoopParams.blocksize_le inside).trans_lt places
    · exact (Nat.le_mul_of_pos_left _ outer).trans_lt short

/-- The blocks of the leaf are among the bytes. -/
theorem Dataloop.Sound.total_leaf_le {d : Dataloop} (sound : d.Sound) :
    total (d.leaf.1.blocks 0 d.leaf.2) ≤ (d.bytes 0).length := by
  induction d with
  | final l size extent => exact (Foundation.length_bytes _).ge
  | nested l size extent d ih =>
    have outer : 0 < (l.places 0 extent).length := sound.1.some_blocks.trans_le sound.1.count_le
    rw [length_bytes_nested]
    exact (ih sound.2).trans (Nat.le_mul_of_pos_left _ outer)

end Narrow

variable {h : Handle} {count : ℕ}

theorem Handle.Sound.length_bytes (sound : h.Sound) : h.bytes.length = h.size := by
  unfold Handle.bytes
  cases loop : h.loop with
  | none => exact Block.length_bytes _
  | some d => exact (sound.derived d loop).2

theorem Handle.Sound.size_pos (sound : h.Sound) : 0 < h.size := by
  cases loop : h.loop with
  | none => exact (sound.intrinsic loop).1
  | some d =>
    obtain ⟨sound, size⟩ := sound.derived d loop
    exact size ▸ List.length_pos_of_ne_nil (sound.bytes_ne_nil 0)

theorem Handle.Sound.length_stream (sound : h.Sound) (count : ℕ) : (h.stream count).length = count * h.size := by
  simp [Handle.stream, List.length_flatMap, sound.length_bytes]

theorem Handle.Sound.elSize_pos (sound : h.Sound) : 0 < h.elSize := by
  unfold Handle.elSize
  cases loop : h.loop with
  | none => exact (sound.intrinsic loop).1
  | some d => exact (sound.derived d loop).1.leaf_pos.2

theorem Handle.stream_one : h.stream 1 = h.bytes := by
  simp [Handle.stream]

/-- The loop of a segment stands for the items. -/
theorem loopOf_spec (sound : h.Sound) (some_items : 0 < count) :
    (h.loopOf count).Sound ∧ (h.loopOf count).leaf.2 = h.elSize ∧
      ∀ o, (h.loopOf count).bytes o = (h.stream count).map (o + ·) := by
  have one_leaf (c elSize : ℕ) (o : ℤ) : Foundation.bytes ((LoopParams.contig c).blocks o elSize) =
      (Block.mk o (c * elSize)).bytes := by
    rw [blocks_contig]
    exact List.append_nil _
  have shifted (x o : ℤ) (n : ℕ) : (Block.mk x n).bytes.map (o + ·) = (Block.mk (o + x) n).bytes := Block.map_bytes _
  have items (n : ℕ) (o : ℤ) : ((List.range count).flatMap fun i : ℕ => (Block.mk 0 n).bytes.map fun x =>
    x + i * h.extent).map (o + ·) =
      (List.range count).flatMap fun i : ℕ => (Block.mk (o + i * h.extent) n).bytes := by
    rw [List.map_flatMap]
    congr 1
    funext i
    simp only [add_comm _ ((i : ℤ) * h.extent), shifted, add_zero]
  cases loop : h.loop with
  | none =>
    obtain ⟨pos, contiguous⟩ := sound.intrinsic loop
    simp only [Handle.loopOf, Handle.elSize, Handle.stream, Handle.bytes, loop]
    refine ⟨⟨⟨trivial, Nat.one_pos, fun _ _ => some_items⟩, pos⟩, rfl, fun o => ?_⟩
    rw [Dataloop.bytes, one_leaf, contiguous_items, items, contiguous]
  | some d =>
    obtain ⟨sound, size⟩ := sound.derived d loop
    by_cases one : count = 1
    · subst one
      simp only [Handle.loopOf, Handle.elSize, Handle.stream_one, Handle.bytes, loop, Nat.one_ne_zero,
        if_false, if_true]
      refine ⟨sound, trivial, fun o => ?_⟩
      rw [← bytes_add, add_zero]
    by_cases contig : ∃ c elSize elExtent, d = .final (.contig c) elSize elExtent
    · obtain ⟨c, elSize, elExtent, rfl⟩ := contig
      have pos : 0 < c := sound.1.positive 0 Nat.one_pos
      have whole : h.size = c * elSize := by
        rw [← size, Dataloop.bytes, one_leaf, Block.length_bytes]
      have bytes : h.bytes = (Block.mk 0 (c * elSize)).bytes := by
        rw [Handle.bytes, loop]
        exact one_leaf c elSize 0
      by_cases dense : (h.size : ℤ) = h.extent
      · simp only [Handle.loopOf, Handle.elSize, loop, if_neg one, if_neg some_items.ne', if_pos dense]
        refine ⟨⟨⟨trivial, Nat.one_pos, fun _ _ => Nat.mul_pos some_items pos⟩, sound.2⟩, rfl, fun o => ?_⟩
        rw [Dataloop.bytes, one_leaf, Handle.stream, bytes, items, Nat.mul_assoc, contiguous_items, ← dense, whole]
      · simp only [Handle.loopOf, Handle.elSize, loop, if_neg one, if_neg some_items.ne', if_neg dense]
        refine ⟨⟨⟨trivial, some_items, fun _ _ => pos⟩, sound.2⟩, rfl, fun o => ?_⟩
        rw [Dataloop.bytes, Handle.stream, bytes, items, Foundation.bytes, LoopParams.blocks, List.flatMap_map]
        rfl
    · have general : h.loopOf count = .nested (.contig count) h.size h.extent d := by
        rw [Handle.loopOf, loop]
        dsimp only
        rw [if_neg some_items.ne', if_neg one]
        split
        · exact absurd ⟨_, _, _, rfl⟩ contig
        · rfl
      rw [general]
      simp only [Handle.elSize, Handle.stream, Handle.bytes, loop]
      refine ⟨⟨⟨trivial, Nat.one_pos, fun _ _ => some_items⟩, sound⟩, rfl, fun o => ?_⟩
      have places : (LoopParams.contig count).places o h.extent = (List.range count).map fun i : ℕ =>
          o + i * h.extent := by
        simp [LoopParams.places, LoopParams.placesAt, LoopParams.count, LoopParams.blocksize, LoopParams.offset]
      rw [Dataloop.bytes, places, List.flatMap_map, List.map_flatMap]
      congr 1
      funext i
      rw [← add_zero (o + i * h.extent), bytes_add, List.map_map]
      refine List.map_congr_left fun x _ => ?_
      simp only [Function.comp_apply]
      ring

/-- Two `int` with room for one between them. -/
def gapped : Handle := ⟨8, 12, some (.final (.vector 2 1 8) 4 4)⟩

def cleared : ℕ → Stackelm := fun _ => ⟨.final (.contig 0) 0 0, 0, 0, 0, 0, 0, 0⟩

theorem gapped_sound : gapped.Sound where
  intrinsic none := by simp [gapped] at none
  derived d loop := by
    obtain rfl := Option.some.inj loop
    exact ⟨⟨⟨trivial, by decide, fun _ _ => Nat.one_pos⟩, by decide⟩, by decide⟩

end Items

section Init
variable {d : Dataloop} {elm : ℕ → Stackelm} {i : ℕ}

theorem loadAll_spec (d : Dataloop) (i : ℕ) (elm : ℕ → Stackelm) :
    Idle (loadAll d i elm) d i ∧ (∀ j, j < i → loadAll d i elm j = elm j) ∧ loadAll d i elm i = (elm i).load d := by
  induction d generalizing i elm with
  | final l size extent =>
    have here : loadAll (.final l size extent) i elm i = (elm i).load (.final l size extent) :=
      Function.update_self _ _ _
    refine ⟨?_, fun j lt => Function.update_of_ne lt.ne _ _, here⟩
    rw [Idle, here]
    exact Stackelm.loaded_load _ _
  | nested l size extent d ih =>
    obtain ⟨idle, others, -⟩ := ih (i + 1) (Function.update elm i ((elm i).load (.nested l size extent d)))
    have here : loadAll (.nested l size extent d) i elm i = (elm i).load (.nested l size extent d) := by
      rw [loadAll, others i (Nat.lt_succ_self i), Function.update_self]
    refine ⟨⟨?_, idle⟩, fun j lt => ?_, here⟩
    · rw [here]
      exact Stackelm.loaded_load _ _
    · rw [loadAll, others j (by omega), Function.update_of_ne lt.ne]

/-- A new segment is in front of the stream. -/
structure Fresh (s : Segment) (d : Dataloop) (buf : ℤ) : Prop where
  walks : s.Walks d
  here : s.curSp ≠ none
  ptr : s.ptr = buf
  streamOff : s.streamOff = 0
  left : s.left = (d.bytes 0).map (buf + ·)
  work : s.work = d.work

theorem init_spec {h : Handle} {count : ℕ} (sound : (h.loopOf count).Sound)
    (shallow : (h.loopOf count).depth < maxDatatypeDepth)
    (buf : ℤ) (stack : ℕ → Stackelm) : ∃ s, segmentInit buf count h stack = some s ∧ Fresh s (h.loopOf count) buf := by
  obtain ⟨idle, -, first⟩ := loadAll_spec (h.loopOf count) 0 stack
  have begins : Function.update (loadAll (h.loopOf count) 0 stack) 0 (loadAll (h.loopOf count) 0 stack 0).begin 0 =
      (loadAll (h.loopOf count) 0 stack 0).enter 0 := by
    rw [Function.update_self, first, Stackelm.begin_load]
  obtain ⟨current, rest, work⟩ := idle.enter sound begins fun j lt => Function.update_of_ne lt.ne' _ _
  refine ⟨⟨buf, 0, some 0, Function.update (loadAll (h.loopOf count) 0 stack) 0
    (loadAll (h.loopOf count) 0 stack 0).begin⟩,
    if_pos shallow, ⟨_, rfl, current⟩, Option.some_ne_none 0, rfl, rfl, ?_, work⟩
  rw [Segment.left_of_curSp rfl, rest, leftOuter, List.append_nil]

end Init

section Ranges
variable {P : Type} {fns : PieceFns P} {l : LoopParams} {size : ℕ} {A : Bool → P → List ℤ → Prop}
  {E : P → List ℤ → ℤ → Prop} {s : Segment} {d : Dataloop} {first last : ℤ} {p : P} {fuel : ℕ}

/-- The bytes of a stream from `first` to `last`, less an element that `last` cuts. -/
def between (first last : ℤ) (size : ℕ) (stream : List ℤ) : List ℤ :=
  if last = ignoreLast then stream.drop first.toNat else
    (stream.drop first.toNat).take ((last - first).toNat / size * size)

theorem length_between_le {stream : List ℤ} : (between first last size stream).length ≤ stream.length := by
  unfold between
  split <;> simp

/-- What piece functions make of a range: all of it, or what is in front of a byte. -/
def Settles (A : Bool → P → List ℤ → Prop) (E : P → List ℤ → ℤ → Prop) (range : List ℤ) (all : Prop) (k : ℕ)
    (p : P) : Prop :=
  (k = range.length ∧ A true p range ∧ (all → A false p range)) ∨
    ∃ front x rest, range = front ++ x :: rest ∧ k = front.length ∧ E p front x

theorem Ends.settles {left : List ℤ} {room k : ℕ} (within : room ≤ left.length) (ends : Ends A E [] left room k p) :
    Settles A E (left.take room) (room = left.length) k p := by
  obtain ⟨rfl, acc, whole⟩ | ⟨lt, x, rest, next, stopped⟩ := ends
  · exact .inl ⟨by simpa using within, acc, whole⟩
  · refine .inr ⟨left.take k, x, rest.take (room - k - 1), ?_, by simp; omega, stopped⟩
    have more : left.take room = left.take k ++ (left.drop k).take (room - k) := by
      rw [← List.take_add, Nat.add_sub_cancel' lt.le]
    obtain ⟨n, same⟩ : ∃ n, room - k = n + 1 := ⟨room - k - 1, by omega⟩
    rw [more, next, same, List.take_succ_cons, Nat.add_sub_cancel]

theorem serves_null {bufp : ℤ} : Serves (PieceFns.null (P := Unit)) l size (fun _ _ _ => True)
    (fun _ _ _ => False) bufp where
  weaken _ _ _ := trivial
  null _ _ _ _ _ := trivial
  contig _ found := by simp [PieceFns.null] at found
  vector _ found := by simp [PieceFns.null] at found
  blkidx _ found := by simp [PieceFns.null] at found
  index _ found := by simp [PieceFns.null] at found

/-- A segment in front of `first` is taken there. -/
theorem reposition_spec (sound : d.Sound) (narrow : d.Narrow) (leaf : d.leaf = (l, size)) (pos : 0 < size)
    (walks : s.Walks d)
    (here : s.curSp ≠ none) (ahead : s.streamOff ≤ first) (positive : 0 ≤ first)
    (whole : (size : ℤ) ∣ first - s.streamOff)
    (inside : (first - s.streamOff).toNat < s.left.length) (enough : s.work < fuel) :
    ∃ t, s.reposition fuel first = some t ∧ Moved d s t (first - s.streamOff).toNat ∧ t.curSp ≠ none := by
  unfold Segment.reposition
  rw [if_neg (not_lt.mpr ahead)]
  by_cases there : first = s.streamOff
  · rw [if_pos there, there, sub_self]
    exact ⟨s, rfl, .refl walks, here⟩
  · rw [if_neg there]
    have no_ignore : first ≠ ignoreLast := by
      unfold ignoreLast
      omega
    obtain ⟨t, q, k, run, walked⟩ : ∃ t q k, s.loop .null first fuel () = some (t, q) ∧
        Walked (fun _ _ _ => True) (fun _ _ _ => False) d first size [] s t q k :=
      loop_spec sound narrow leaf serves_null pos walks here (.inr ahead) trivial .start enough
    -- all of the room is used up, and it reaches to `first`
    have cast : ((first - s.streamOff).toNat : ℤ) = first - s.streamOff := Int.toNat_of_nonneg (by omega)
    have exactly : (first - s.streamOff).toNat / size * size = (first - s.streamOff).toNat :=
      Nat.div_mul_cancel (Int.natCast_dvd_natCast.mp (cast ▸ whole))
    have room : s.room first size = (first - s.streamOff).toNat := by
      rw [Segment.room, if_neg no_ignore, exactly, min_eq_right inside.le]
    obtain ⟨rfl, -, -⟩ | ⟨-, x, rest, -, stopped⟩ := walked.ends
    · rw [room] at walked
      have reached : t.streamOff = first := by
        rw [walked.moved.streamOff, cast]
        ring
      refine ⟨t, ?_, walked.moved, fun nowhere => ?_⟩
      · rw [run, Option.bind_some]
        exact if_pos reached
      · have empty : t.left = [] := by rw [Segment.left, nowhere]
        have length := congrArg List.length (walked.moved.left.symm.trans empty)
        rw [List.length_drop, List.length_nil] at length
        omega
    · contradiction

theorem dvd_length_bytes (d : Dataloop) (o : ℤ) : d.leaf.2 ∣ (d.bytes o).length := by
  induction d generalizing o with
  | final l size extent =>
    rw [Dataloop.bytes, length_bytes]
    exact dvd_total_drop (c := 0)
  | nested l size extent d ih =>
    rw [Dataloop.bytes, List.length_flatMap]
    refine List.dvd_sum fun n mem => ?_
    obtain ⟨x, -, rfl⟩ := List.mem_map.mp mem
    exact ih x

/-- The rule for a new segment. -/
theorem manipulate_spec {buf : ℤ} (fresh : Fresh s d buf) (sound : d.Sound) (narrow : d.Narrow)
    (leaf : d.leaf = (l, size)) (pos : 0 < size)
    (serves : Serves fns l size A E buf) (acc : A false p []) (positive : 0 ≤ first) (whole : (size : ℤ) ∣ first)
    (inside : first.toNat < (d.bytes 0).length) (ordered : last = ignoreLast ∨ first ≤ last) (enough : d.work < fuel) :
    ∃ t, ∃ k : ℕ, ∃ p', s.manipulate fns fuel first last p = some (t, first + k, p') ∧
      Settles A E (between first last size ((d.bytes 0).map (buf + ·)))
        (last = ignoreLast ∨ (d.bytes 0).length ≤ last) k p' := by
  by_cases same : first = last
  · have no_ignore : last ≠ ignoreLast := by
      unfold ignoreLast
      omega
    refine ⟨s, 0, p, by simp [Segment.manipulate, same], .inl ?_⟩
    have nothing : between first last size ((d.bytes 0).map (buf + ·)) = [] := by simp [between, no_ignore, same]
    rw [nothing]
    refine ⟨rfl, serves.weaken p [] acc, fun reached => acc⟩
  have length : s.left.length = (d.bytes 0).length := by rw [fresh.left, List.length_map]
  have streamOff := fresh.streamOff
  have enough' : s.work < fuel := fresh.work ▸ enough
  have ahead : s.streamOff ≤ first := streamOff ▸ positive
  obtain ⟨t, repositioned, moved, here⟩ := reposition_spec sound narrow leaf pos fresh.walks fresh.here ahead positive
    (by rwa [streamOff, sub_zero]) (by rwa [streamOff, sub_zero, length]) enough'
  rw [streamOff, sub_zero] at moved
  have cast : (first.toNat : ℤ) = first := Int.toNat_of_nonneg positive
  have at_first : t.streamOff = first := by rw [moved.streamOff, streamOff, cast, zero_add]
  have ahead : t.Ahead last := ordered.imp id fun le => at_first ▸ le
  obtain ⟨u, p', k, run, walked⟩ := loop_spec sound narrow leaf ((moved.ptr.trans fresh.ptr).symm ▸ serves) pos
    moved.walks here ahead
    acc .start (moved.work.trans_lt enough')
  refine ⟨u, k, p', ?_, ?_⟩
  · unfold Segment.manipulate
    rw [if_neg same, repositioned, Option.bind_some, run, Option.map_some, ← at_first, ← walked.moved.streamOff]
  · have left : t.left = ((d.bytes 0).map (buf + ·)).drop first.toNat := by rw [moved.left, fresh.left]
    have rest : t.left.length = (d.bytes 0).length - first.toNat := by rw [left, List.length_drop, List.length_map]
    have range : t.left.take (t.room last size) = between first last size ((d.bytes 0).map (buf + ·)) := by
      unfold between Segment.room
      rw [← left, at_first]
      split
      · exact List.take_length
      · rw [List.take_eq_take_iff]
        omega
    have settled := walked.ends.settles t.room_le
    rw [range] at settled
    refine settled.imp (fun ⟨all, acc, exact⟩ => ⟨all, acc, fun reached => exact ?_⟩) id
    -- what is left is made of whole elements
    have dvd : size ∣ (d.bytes 0).length := by
      have := dvd_length_bytes d 0
      rwa [leaf] at this
    have dvd_first : size ∣ first.toNat := Int.natCast_dvd_natCast.mp (cast.symm ▸ whole)
    have elements := Nat.div_mul_cancel (Nat.dvd_sub dvd dvd_first)
    unfold Segment.room
    split
    · rfl
    · rename_i ends
      have far : (d.bytes 0).length ≤ last := reached.resolve_left ends
      have more : ((d.bytes 0).length - first.toNat) / size ≤ (last - first).toNat / size :=
        Nat.div_le_div_right (by omega)
      have enough := Nat.mul_le_mul_right size more
      rw [elements] at enough
      rw [at_first, min_eq_left (rest ▸ enough)]

end Ranges

end FoMPI.Mpitypes
