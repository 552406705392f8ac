import FoMPI.Dcache.Superposition

/-!
# Transfers between layouts of any size

Where two layouts do not have the same size `dcache_get_next_block` may read past the last
block of one of them, and then there is no result. Where a transfer does end, the cache is
good and at rest, and the chunks hold no more bytes than the first layout.
-/
namespace FoMPI.Dcache
open FoMPI.Foundation

variable {ι : Type*} {e e' : DcacheBlocks ι} {m : ℕ}

namespace DcacheBlocks

/-- The bytes that an entry has still to deliver. -/
def left (e : DcacheBlocks ι) : ℕ := e.blockRemainingSize + total (e.blocks.drop e.pos)

theorem begin_left (begun : e.begin = some e') : e'.left = e.left ∧ e.SameEntry e' := by
  unfold DcacheBlocks.begin at begun
  split at begun
  · rename_i zero
    obtain ⟨b, at_pos, rfl⟩ := Option.map_eq_some_iff.mp begun
    obtain ⟨inside, rfl⟩ := List.getElem?_eq_some_iff.mp at_pos
    refine ⟨?_, ⟨rfl, rfl, rfl⟩⟩
    simp only [left, zero, List.drop_eq_getElem_cons inside, total_cons, Nat.zero_add]
  · obtain rfl := Option.some.inj begun
    exact ⟨rfl, ⟨rfl, rfl, rfl⟩⟩

theorem left_consume (le : m ≤ e.blockRemainingSize) : (e.consume m).left + m = e.left := by
  simp only [left, consume]
  omega

theorem left_finish : e.finish.left + e.blockRemainingSize = e.left := by
  simp only [left, finish]
  omega

theorem reset_atStart : e.reset.AtStart := ⟨rfl, rfl⟩

theorem SameEntry.trans {e'' : DcacheBlocks ι} (first : e.SameEntry e') (second : e'.SameEntry e'') :
    e.SameEntry e'' :=
  ⟨second.blocks.trans first.blocks, second.type.trans first.type, second.typeCount.trans first.typeCount⟩

/-- There is no block to begin beyond the last one. -/
theorem begin_none (pending : e.pending = []) : e.begin = none := by
  unfold DcacheBlocks.pending at pending
  unfold DcacheBlocks.begin
  split at pending
  · rename_i zero
    rw [if_pos zero, List.getElem?_eq_none (List.drop_eq_nil_iff.mp pending)]
    rfl
  · contradiction

end DcacheBlocks

open DcacheBlocks (reset_atStart)

variable {layout : Layout ι} {c c' : GlobInfo ι} {origin target : Key ι} {o t : Fin 10} {chunk : Chunk} {last : Bool}

/-- An entry that goes back to its start keeps what is stored. -/
theorem reset_sameEntry (c : GlobInfo ι) (i j : Fin 10) :
    (c.dcacheBlocks j).SameEntry ((c.set i (c.dcacheBlocks i).reset).dcacheBlocks j) := by
  by_cases here : j = i
  · subst here
    rw [GlobInfo.set_same]
    exact ⟨rfl, rfl, rfl⟩
  · rw [GlobInfo.set_other _ _ here]
    exact ⟨rfl, rfl, rfl⟩

/-- The end of an iteration reports the last block where both entries are exhausted. -/
theorem ending_iff {exhausted : Prop} [Decidable exhausted] {found : Chunk} {c₁ c₂ : GlobInfo ι}
    (ending : (if exhausted then some (found, true, c₁) else some (found, false, c₂)) = some (chunk, last, c')) :
    chunk = found ∧ (last = true ↔ exhausted) ∧ c' = if exhausted then c₁ else c₂ := by
  split at ending
  · rename_i done
    obtain ⟨rfl, rfl, rfl⟩ := by simpa only [Option.some.injEq, Prod.mk.injEq] using ending
    exact ⟨rfl, iff_of_true rfl done, (if_pos done).symm⟩
  · rename_i more
    obtain ⟨rfl, rfl, rfl⟩ := by simpa only [Option.some.injEq, Prod.mk.injEq] using ending
    exact ⟨rfl, iff_of_false Bool.false_ne_true more, (if_neg more).symm⟩

/-- Exhausted entries go back to their start, and all entries are kept. -/
theorem ending_left {d : GlobInfo ι} {found : Chunk} (moved : Moved c d o t)
    (consumed : (d.dcacheBlocks o).left + found.size = (c.dcacheBlocks o).left)
    (ending : (if (d.dcacheBlocks o).exhausted ∧ (d.dcacheBlocks t).exhausted then
        some (found, true, (d.set o (d.dcacheBlocks o).reset).set t
          ((d.set o (d.dcacheBlocks o).reset).dcacheBlocks t).reset)
      else some (found, false, d)) = some (chunk, last, c')) :
    Moved c c' o t ∧ chunk.size ≤ (c.dcacheBlocks o).left ∧
      (last = true → (c'.dcacheBlocks o).AtStart ∧ (c'.dcacheBlocks t).AtStart) ∧
      (last = false → (c'.dcacheBlocks o).left + chunk.size = (c.dcacheBlocks o).left) := by
  obtain ⟨rfl, finished, after⟩ := ending_iff ending
  have fits : chunk.size ≤ (c.dcacheBlocks o).left := by omega
  split at after
  · rename_i done
    obtain rfl := finished.mpr done
    subst after
    have kept (i : Fin 10) := (reset_sameEntry d o i).trans (reset_sameEntry _ t i)
    refine ⟨⟨moved.origin.trans (kept o), moved.target.trans (kept t), fun i io it => ?_⟩, fits,
      fun _ => ⟨?_, ?_⟩, by simp⟩
    · simpa [io, it] using moved.others i io it
    · by_cases same : o = t
      · simp [same, reset_atStart]
      · simp [same, reset_atStart]
    · simp [reset_atStart]
  · rename_i more
    subst after
    have notLast : last ≠ true := fun h => more (finished.mp h)
    exact ⟨moved, fits, fun h => absurd h notLast, fun _ => consumed⟩

/-- What one call does to the two entries, whatever their sizes. -/
theorem findNextBlock_left (found : c.findNextBlock o t = some (chunk, last, c')) :
    Moved c c' o t ∧ chunk.size ≤ (c.dcacheBlocks o).left ∧
      (last = true → (c'.dcacheBlocks o).AtStart ∧ (c'.dcacheBlocks t).AtStart) ∧
      (last = false → (c'.dcacheBlocks o).left + chunk.size = (c.dcacheBlocks o).left) := by
  unfold GlobInfo.findNextBlock at found
  obtain ⟨c₁, begunO, found⟩ := Option.bind_eq_some_iff.mp found
  obtain ⟨eo, beginO, rfl⟩ := Option.map_eq_some_iff.mp begunO
  obtain ⟨c₂, begunT, found⟩ := Option.bind_eq_some_iff.mp found
  obtain ⟨et, beginT, rfl⟩ := Option.map_eq_some_iff.mp begunT
  by_cases same : o = t
  · subst same
    rw [GlobInfo.set_same] at beginT
    obtain ⟨leftO, sameO⟩ := DcacheBlocks.begin_left beginO
    obtain ⟨leftT, sameT⟩ := DcacheBlocks.begin_left beginT
    simp only [GlobInfo.set_same, lt_self_iff_false, if_false, ne_eq, not_true_eq_false] at found
    have kept : (c.dcacheBlocks o).SameEntry et.finish := sameO.trans (sameT.trans ⟨rfl, rfl, rfl⟩)
    have consumed := et.left_finish.trans (leftT.trans leftO)
    refine ending_left (d := ((c.set o eo).set o et).set o et.finish) ⟨?_, ?_, fun i io _ => by simp [io]⟩ ?_
      (by simpa only [GlobInfo.set_same, Option.pure_def] using found)
    · rwa [GlobInfo.set_same]
    · rwa [GlobInfo.set_same]
    · rwa [GlobInfo.set_same]
  · have other : t ≠ o := Ne.symm same
    rw [GlobInfo.set_other _ _ other] at beginT
    obtain ⟨leftO, sameO⟩ := DcacheBlocks.begin_left beginO
    obtain ⟨leftT, sameT⟩ := DcacheBlocks.begin_left beginT
    simp only [GlobInfo.set_same, GlobInfo.set_other _ _ same, ne_eq, same, not_false_eq_true, if_true] at found
    generalize size : (if eo.blockRemainingSize < et.blockRemainingSize then eo.blockRemainingSize
      else et.blockRemainingSize) = m at found
    have le : m ≤ eo.blockRemainingSize := by
      rw [← size]
      split <;> omega
    have consumed := (DcacheBlocks.left_consume le).trans leftO
    refine ending_left (d := (((c.set o eo).set t et).set o (eo.consume m)).set t (et.consume m))
      ⟨?_, ?_, fun i io it => by simp [io, it]⟩ ?_
      (by simpa only [GlobInfo.set_same, GlobInfo.set_other _ _ same, Option.pure_def] using found)
    · rw [GlobInfo.set_other _ _ same, GlobInfo.set_same]
      exact sameO.trans ⟨rfl, rfl, rfl⟩
    · rw [GlobInfo.set_same]
      exact sameT.trans ⟨rfl, rfl, rfl⟩
    · rwa [GlobInfo.set_other _ _ same, GlobInfo.set_same]

variable [DecidableEq ι]

/-- A transfer under way between layouts of any size: entry `o` has `n` bytes still to deliver. -/
structure Walking (layout : Layout ι) (c : GlobInfo ι) (origin target : Key ι) (o t : Fin 10) (n : ℕ) : Prop where
  good : Good layout c
  others : ∀ i, i ≠ o → i ≠ t → (c.dcacheBlocks i).type ≠ none → (c.dcacheBlocks i).AtStart
  holdsO : (c.dcacheBlocks o).holds origin
  holdsT : (c.dcacheBlocks t).holds target
  left : (c.dcacheBlocks o).left = n

theorem Walking.congr {n : ℕ} (h : Walking layout c origin target o t n) (same : c'.dcacheBlocks = c.dcacheBlocks) :
    Walking layout c' origin target o t n := by
  obtain ⟨good, others, holdsO, holdsT, left⟩ := h
  refine ⟨⟨?_, ?_⟩, ?_, ?_, ?_, ?_⟩
  all_goals rw [same]
  all_goals first | assumption | exact good.stored | exact good.unique

/-- The loop, by induction on the calls left. -/
theorem transfer_left (fuel : ℕ) {c c₁ : GlobInfo ι} {chunks : List Chunk} {n : ℕ}
    (lookup : c.lookup layout origin target = (o, t, c₁)) (h : Walking layout c₁ origin target o t n)
    (run : c.transfer layout origin target fuel = some (chunks, c')) :
    (chunks.map Chunk.size).sum ≤ n ∧ Good layout c' ∧ Rests c' := by
  induction fuel generalizing c c₁ chunks n with
  | zero => contradiction
  | succ fuel ih =>
    have next : c.getNextBlock layout origin target = c₁.findNextBlock o t := by
      rw [GlobInfo.getNextBlock, lookup]
    rw [GlobInfo.transfer, next] at run
    obtain ⟨⟨chunk, last, c₂⟩, found, run⟩ := Option.bind_eq_some_iff.mp run
    obtain ⟨moved, le, atStart, fewer⟩ := findNextBlock_left found
    rw [h.left] at le fewer
    have good := moved.good h.good
    cases last with
    | true =>
      obtain ⟨rfl, rfl⟩ : [chunk] = chunks ∧ c₂ = c' := by simpa using run
      obtain ⟨startO, startT⟩ := atStart rfl
      exact ⟨by simpa using le, good, moved.rests h.others startO startT⟩
    | false =>
      obtain ⟨⟨rest, c₃⟩, further, result⟩ := Option.bind_eq_some_iff.mp run
      obtain ⟨rfl, rfl⟩ : chunk :: rest = chunks ∧ c₃ = c' := by simpa using result
      have walking : Walking layout c₂ origin target o t (n - chunk.size) := by
        refine ⟨good, moved.othersRest h.others, moved.holdsO h.holdsO, moved.holdsT h.holdsT, ?_⟩
        have := fewer rfl
        omega
      obtain ⟨c₄, again, entries⟩ := lookup_again good walking.holdsO walking.holdsT
      obtain ⟨sum, good', rests'⟩ := ih again (walking.congr entries) further
      refine ⟨?_, good', rests'⟩
      rw [List.map_cons, List.sum_cons]
      omega

/-- A transfer that ends, between any two datatypes. -/
theorem transfer_bounded (good : Good layout c) (rests : Rests c) {fuel : ℕ} {chunks : List Chunk}
    (run : c.transfer layout origin target fuel = some (chunks, c')) :
    (chunks.map Chunk.size).sum ≤ total (layout origin.1 origin.2) ∧ Good layout c' ∧ Rests c' := by
  obtain ⟨o, t, c₁, lookup, good₁, rests₁, holdsO, holdsT⟩ := lookup_first good rests origin target
  refine transfer_left fuel lookup ⟨good₁, fun i _ _ => rests₁ i, holdsO, holdsT, ?_⟩ run
  have start : (c₁.dcacheBlocks o).AtStart := by
    apply rests₁
    rw [(holds_iff.mp holdsO).1]
    exact Option.some_ne_none _
  rw [DcacheBlocks.left, start.1, start.2, List.drop_zero, Nat.zero_add, good₁.stored o origin holdsO]

section First
variable {chunks : List Chunk} {fuel : ℕ} {b b' : Block} {bs bs' : List Block}

omit [DecidableEq ι] in
/-- The chunk that two entries begin with, whatever their sizes. A block of no bytes would be skipped
where both sides are the same entry. -/
theorem findNextBlock_first (pendingO : (c.dcacheBlocks o).pending = b :: bs)
    (pendingT : (c.dcacheBlocks t).pending = b' :: bs') (withinO : (c.dcacheBlocks o).pos ≤ (c.dcacheBlocks o).blocks.length)
    (withinT : (c.dcacheBlocks t).pos ≤ (c.dcacheBlocks t).blocks.length) (some_bytes : 0 < b.blocklen)
    (found : c.findNextBlock o t = some (chunk, last, c')) :
    chunk = ⟨b.displ, b'.displ, min b.blocklen b'.blocklen⟩ ∧ (last = true ↔ bs = [] ∧ bs' = []) := by
  obtain ⟨eo, beginO, begunO, -⟩ := DcacheBlocks.begin_spec pendingO withinO
  obtain ⟨et, beginT, begunT, -⟩ := DcacheBlocks.begin_spec pendingT withinT
  by_cases same : o = t
  · subst same
    obtain ⟨rfl, rfl⟩ := List.cons.inj (pendingO.symm.trans pendingT)
    have again : eo.begin = some eo := begunO.begin_eq some_bytes
    have exhausted : eo.finish.exhausted = true ↔ bs = [] := begunO.exhausted_iff
    simp only [GlobInfo.findNextBlock, beginO, again, Option.map_some, Option.bind_eq_bind,
      Option.bind_some, GlobInfo.set_same, begunO.remaining, begunO.offset, lt_self_iff_false,
      if_false, ne_eq, not_true_eq_false, exhausted, and_self] at found
    rw [Nat.min_self, and_self]
    obtain ⟨first, finished, -⟩ := ending_iff found
    exact ⟨first, finished⟩
  · have least : (if b.blocklen < b'.blocklen then b.blocklen else b'.blocklen) = min b.blocklen b'.blocklen := by
      split <;> omega
    have exhaustedO (m : ℕ) : (eo.consume m).exhausted = true ↔ bs = [] := begunO.exhausted_iff
    have exhaustedT (m : ℕ) : (et.consume m).exhausted = true ↔ bs' = [] := begunT.exhausted_iff
    simp only [GlobInfo.findNextBlock, beginO, beginT, Option.map_some, Option.bind_eq_bind,
      Option.bind_some, GlobInfo.set_other _ _ (Ne.symm same), GlobInfo.set_other _ _ same,
      GlobInfo.set_same, begunO.remaining, begunT.remaining, begunO.offset, begunT.offset, least,
      same, ne_eq, not_false_eq_true, if_true, exhaustedO, exhaustedT] at found
    obtain ⟨first, finished, -⟩ := ending_iff found
    exact ⟨first, finished⟩

/-- The first block of a transfer between layouts of any size. -/
theorem getNextBlock_first (good : Good layout c) (rests : Rests c) (positive : Positive (layout origin.1 origin.2))
    (found : c.getNextBlock layout origin target = some (chunk, last, c')) :
    ∃ b bs b' bs', layout origin.1 origin.2 = b :: bs ∧ layout target.1 target.2 = b' :: bs' ∧
      chunk = ⟨b.displ, b'.displ, min b.blocklen b'.blocklen⟩ ∧ (last = true ↔ bs = [] ∧ bs' = []) := by
  obtain ⟨o, t, c₁, lookup, good₁, rests₁, holdsO, holdsT⟩ := lookup_first good rests origin target
  rw [GlobInfo.getNextBlock, lookup] at found
  change c₁.findNextBlock o t = some (chunk, last, c') at found
  have start {i : Fin 10} {key : Key ι} (holds : (c₁.dcacheBlocks i).holds key) :
      (c₁.dcacheBlocks i).pending = layout key.1 key.2 ∧
        (c₁.dcacheBlocks i).pos ≤ (c₁.dcacheBlocks i).blocks.length := by
    have atStart : (c₁.dcacheBlocks i).AtStart := by
      apply rests₁
      rw [(holds_iff.mp holds).1]
      exact Option.some_ne_none _
    rw [DcacheBlocks.pending, if_pos atStart.2, atStart.1, List.drop_zero, good₁.stored i key holds]
    exact ⟨rfl, Nat.zero_le _⟩
  obtain ⟨pendingO, withinO⟩ := start holdsO
  obtain ⟨pendingT, withinT⟩ := start holdsT
  cases first : layout origin.1 origin.2 with
  | nil =>
    rw [first] at pendingO
    rw [GlobInfo.findNextBlock, DcacheBlocks.begin_none pendingO] at found
    contradiction
  | cons b bs =>
    cases second : layout target.1 target.2 with
    | nil =>
      rw [first] at pendingO
      rw [second] at pendingT
      have other : t ≠ o := by
        rintro rfl
        exact absurd (pendingO.symm.trans pendingT) (List.cons_ne_nil _ _)
      obtain ⟨eo, beginO, -⟩ := DcacheBlocks.begin_spec pendingO withinO
      simp only [GlobInfo.findNextBlock, beginO, Option.map_some, Option.bind_eq_bind, Option.bind_some,
        GlobInfo.set_other _ _ other, DcacheBlocks.begin_none pendingT, Option.map_none, Option.bind_none] at found
      contradiction
    | cons b' bs' =>
      rw [first] at pendingO positive
      rw [second] at pendingT
      exact ⟨b, bs, b', bs', rfl, rfl,
        findNextBlock_first pendingO pendingT withinO withinT positive.head found⟩

theorem transfer_ne_nil (run : c.transfer layout origin target fuel = some (chunks, c')) : chunks ≠ [] := by
  cases fuel with
  | zero => contradiction
  | succ fuel =>
    obtain ⟨⟨chunk, last, c₁⟩, -, run⟩ := Option.bind_eq_some_iff.mp run
    cases last with
    | true =>
      obtain ⟨rfl, -⟩ : [chunk] = chunks ∧ c₁ = c' := by simpa using run
      exact List.cons_ne_nil _ _
    | false =>
      obtain ⟨⟨rest, c₂⟩, -, result⟩ := Option.bind_eq_some_iff.mp run
      obtain ⟨rfl, -⟩ : chunk :: rest = chunks ∧ c₂ = c' := by simpa using result
      exact List.cons_ne_nil _ _

/-- A transfer has a single block exactly if both layouts have. -/
theorem transfer_first (good : Good layout c) (rests : Rests c) (positive : Positive (layout origin.1 origin.2))
    (run : c.transfer layout origin target fuel = some (chunks, c')) :
    ∃ b bs b' bs' rest, layout origin.1 origin.2 = b :: bs ∧ layout target.1 target.2 = b' :: bs' ∧
      chunks = ⟨b.displ, b'.displ, min b.blocklen b'.blocklen⟩ :: rest ∧ (rest = [] ↔ bs = [] ∧ bs' = []) := by
  cases fuel with
  | zero => contradiction
  | succ fuel =>
    obtain ⟨⟨chunk, last, c₁⟩, found, run⟩ := Option.bind_eq_some_iff.mp run
    obtain ⟨b, bs, b', bs', first, second, rfl, single⟩ := getNextBlock_first good rests positive found
    cases last with
    | true =>
      obtain ⟨rfl, -⟩ : [_] = chunks ∧ c₁ = c' := by simpa using run
      exact ⟨b, bs, b', bs', [], first, second, rfl, iff_of_true rfl (single.mp rfl)⟩
    | false =>
      obtain ⟨⟨rest, c₂⟩, further, result⟩ := Option.bind_eq_some_iff.mp run
      obtain ⟨rfl, -⟩ : _ :: rest = chunks ∧ c₂ = c' := by simpa using result
      refine ⟨b, bs, b', bs', rest, first, second, rfl, iff_of_false (transfer_ne_nil further) ?_⟩
      exact fun both => absurd (single.mpr both) (by decide)

end First

end FoMPI.Dcache
