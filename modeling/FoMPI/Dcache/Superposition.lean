import FoMPI.Dcache.Lookup

/-!
# Datatype superposition through the cache

What an entry has still to deliver is a layout of its own, `pending`. One call of
`dcache_get_next_block` advances the pending layouts of both entries by one chunk;
a transfer is then an induction on the blocks left, and a history an induction on
its calls.
-/
namespace FoMPI.Dcache
open FoMPI.Foundation

variable {ι : Type*} {e : DcacheBlocks ι} {b : Block} {bs : List Block} {m : ℕ}

namespace DcacheBlocks

def pending (e : DcacheBlocks ι) : List Block :=
  if e.blockRemainingSize = 0 then e.blocks.drop e.pos
  else ⟨e.blockOffset, e.blockRemainingSize⟩ :: e.blocks.drop e.pos

/-- The entry is inside block `b`, with `bs` to follow. -/
structure Begun (e : DcacheBlocks ι) (b : Block) (bs : List Block) : Prop where
  offset : e.blockOffset = b.displ
  remaining : e.blockRemainingSize = b.blocklen
  follow : e.blocks.drop e.pos = bs
  within : e.pos ≤ e.blocks.length

/-- `e'` is the same cache entry as `e`, further on. -/
structure SameEntry (e e' : DcacheBlocks ι) : Prop where
  blocks : e'.blocks = e.blocks
  type : e'.type = e.type
  typeCount : e'.typeCount = e.typeCount

theorem begin_spec (pending : e.pending = b :: bs) (within : e.pos ≤ e.blocks.length) :
    ∃ e', e.begin = some e' ∧ e'.Begun b bs ∧ e.SameEntry e' := by
  unfold DcacheBlocks.pending at pending
  unfold DcacheBlocks.begin
  by_cases zero : e.blockRemainingSize = 0
  · rw [if_pos zero] at pending ⊢
    have inside : e.pos < e.blocks.length := by
      by_contra outside
      rw [List.drop_eq_nil_of_le (by omega)] at pending
      contradiction
    rw [List.drop_eq_getElem_cons inside] at pending
    obtain ⟨head, tail⟩ := List.cons.inj pending
    rw [List.getElem?_eq_getElem inside, head, Option.map_some]
    exact ⟨_, rfl, ⟨rfl, rfl, tail, inside⟩, ⟨rfl, rfl, rfl⟩⟩
  · rw [if_neg zero] at pending ⊢
    obtain ⟨rfl, tail⟩ := List.cons.inj pending
    exact ⟨e, rfl, ⟨rfl, rfl, tail, within⟩, ⟨rfl, rfl, rfl⟩⟩

/-- An entry inside a block has nothing to begin. -/
theorem Begun.begin_eq (h : e.Begun b bs) (some_bytes : 0 < b.blocklen) : e.begin = some e := by
  unfold DcacheBlocks.begin
  rw [if_neg]
  rw [h.remaining]
  exact some_bytes.ne'

theorem Begun.pending_consume (h : e.Begun b bs) (le : m ≤ b.blocklen) :
    (e.consume m).pending = advance m (b :: bs) := by
  unfold pending consume
  simp only [h.remaining, h.offset, h.follow, advance]
  by_cases eq : b.blocklen = m
  · simp [eq]
  · rw [if_neg eq, if_neg (by omega)]

theorem Begun.exhausted_iff (h : e.Begun b bs) : e.exhausted = true ↔ bs = [] := by
  rw [← h.follow, List.drop_eq_nil_iff]
  have := h.within
  simp only [exhausted, decide_eq_true_eq]
  omega

end DcacheBlocks

variable [DecidableEq ι] {layout : Layout ι} {c : GlobInfo ι} {origin target : Key ι}
  {o t : Fin 10} {O T : List Block}

/-- A transfer is under way: entries `o` and `t` have `O` and `T` still to deliver. -/
structure Underway (layout : Layout ι) (c : GlobInfo ι) (origin target : Key ι) (o t : Fin 10)
    (O T : List Block) : Prop where
  good : Good layout c
  others : ∀ i, i ≠ o → i ≠ t → (c.dcacheBlocks i).type ≠ none → (c.dcacheBlocks i).AtStart
  holdsO : (c.dcacheBlocks o).holds origin
  holdsT : (c.dcacheBlocks t).holds target
  pendingO : (c.dcacheBlocks o).pending = O
  pendingT : (c.dcacheBlocks t).pending = T
  withinO : (c.dcacheBlocks o).pos ≤ (c.dcacheBlocks o).blocks.length
  withinT : (c.dcacheBlocks t).pos ≤ (c.dcacheBlocks t).blocks.length
  positiveO : Positive O
  positiveT : Positive T
  nonempty : O ≠ []
  same : total O = total T
  shared : o = t → (c.dcacheBlocks o).blockRemainingSize = 0

theorem Underway.nonemptyT (h : Underway layout c origin target o t O T) : T ≠ [] := by
  intro empty
  have pos := h.positiveO.total_pos h.nonempty
  rw [h.same, empty] at pos
  exact absurd pos (by decide)

/-- Changing entries in a way that keeps their keys and layouts keeps the cache good. -/
theorem Good.sameEntries {c c' : GlobInfo ι} (good : Good layout c)
    (same : ∀ i, (c.dcacheBlocks i).SameEntry (c'.dcacheBlocks i)) : Good layout c' := by
  have holds (i : Fin 10) (key : Key ι) :
      (c'.dcacheBlocks i).holds key ↔ (c.dcacheBlocks i).holds key := by
    rw [holds_iff, holds_iff, (same i).type, (same i).typeCount]
  constructor
  · intro i key h
    rw [(same i).blocks]
    exact good.stored i key ((holds i key).mp h)
  · intro i j key hi hj
    exact good.unique i j key ((holds i key).mp hi) ((holds j key).mp hj)

variable {a : Block} {as : List Block}

theorem Underway.first (h : Underway layout c origin target o t (a :: as) (b :: bs)) :
    First a as b bs (min a.blocklen b.blocklen) :=
  ⟨h.positiveO, h.positiveT, h.same, rfl⟩

/-- What a call leaves behind: nothing pending if it reports the last block, a transfer under way
otherwise. -/
def Left (layout : Layout ι) (origin target : Key ι) (o t : Fin 10) (O T : List Block)
    (last : Bool) (c : GlobInfo ι) : Prop :=
  if last then O = [] ∧ T = [] ∧ Good layout c ∧ Rests c
  else Underway layout c origin target o t O T

/-- A cache that differs from one with a transfer under way in its two entries only. -/
structure Moved (c c' : GlobInfo ι) (o t : Fin 10) : Prop where
  origin : (c.dcacheBlocks o).SameEntry (c'.dcacheBlocks o)
  target : (c.dcacheBlocks t).SameEntry (c'.dcacheBlocks t)
  others : ∀ i, i ≠ o → i ≠ t → c'.dcacheBlocks i = c.dcacheBlocks i

theorem Moved.good {c' : GlobInfo ι} (moved : Moved c c' o t) (good : Good layout c) :
    Good layout c' := by
  apply good.sameEntries
  intro i
  by_cases io : i = o
  · exact io ▸ moved.origin
  · by_cases it : i = t
    · exact it ▸ moved.target
    · rw [moved.others i io it]
      exact ⟨rfl, rfl, rfl⟩

omit [DecidableEq ι] in
/-- The entries that no transfer is at stay at their start. -/
theorem Moved.othersRest {c' : GlobInfo ι} (moved : Moved c c' o t)
    (others : ∀ i, i ≠ o → i ≠ t → (c.dcacheBlocks i).type ≠ none → (c.dcacheBlocks i).AtStart) (i : Fin 10)
    (io : i ≠ o) (it : i ≠ t) (live : (c'.dcacheBlocks i).type ≠ none) : (c'.dcacheBlocks i).AtStart := by
  rw [moved.others i io it] at live ⊢
  exact others i io it live

omit [DecidableEq ι] in
theorem Moved.rests {c' : GlobInfo ι} (moved : Moved c c' o t)
    (others : ∀ i, i ≠ o → i ≠ t → (c.dcacheBlocks i).type ≠ none → (c.dcacheBlocks i).AtStart)
    (startO : (c'.dcacheBlocks o).AtStart) (startT : (c'.dcacheBlocks t).AtStart) : Rests c' := by
  intro i live
  by_cases io : i = o
  · exact io ▸ startO
  · by_cases it : i = t
    · exact it ▸ startT
    · exact moved.othersRest others i io it live

theorem Moved.holdsO {c' : GlobInfo ι} (moved : Moved c c' o t) (holds : (c.dcacheBlocks o).holds origin) :
    (c'.dcacheBlocks o).holds origin := by
  rw [holds_iff, moved.origin.type, moved.origin.typeCount]
  exact holds_iff.mp holds

theorem Moved.holdsT {c' : GlobInfo ι} (moved : Moved c c' o t) (holds : (c.dcacheBlocks t).holds target) :
    (c'.dcacheBlocks t).holds target := by
  rw [holds_iff, moved.target.type, moved.target.typeCount]
  exact holds_iff.mp holds

theorem Moved.underway {c' : GlobInfo ι} (moved : Moved c c' o t)
    (h : Underway layout c origin target o t (a :: as) (b :: bs))
    (pendingO : (c'.dcacheBlocks o).pending = advance m (a :: as))
    (pendingT : (c'.dcacheBlocks t).pending = advance m (b :: bs))
    (withinO : (c'.dcacheBlocks o).pos ≤ (c'.dcacheBlocks o).blocks.length)
    (withinT : (c'.dcacheBlocks t).pos ≤ (c'.dcacheBlocks t).blocks.length)
    (size : m = min a.blocklen b.blocklen) (more : ¬(as = [] ∧ bs = []))
    (shared : o = t → (c'.dcacheBlocks o).blockRemainingSize = 0) :
    Underway layout c' origin target o t (advance m (a :: as)) (advance m (b :: bs)) := by
  have first : First a as b bs m := ⟨h.positiveO, h.positiveT, h.same, size⟩
  exact ⟨moved.good h.good, moved.othersRest h.others, moved.holdsO h.holdsO, moved.holdsT h.holdsT,
    pendingO, pendingT, withinO, withinT, h.positiveO.advance first.le_left, h.positiveT.advance first.le_right,
    first.advance_more more, first.same_advance, shared⟩

theorem findNextBlock_distinct (h : Underway layout c origin target o t (a :: as) (b :: bs))
    (ne : o ≠ t) (size : m = min a.blocklen b.blocklen) :
    ∃ last c', c.findNextBlock o t = some (⟨a.displ, b.displ, m⟩, last, c') ∧
      Left layout origin target o t (advance m (a :: as)) (advance m (b :: bs)) last c' := by
  obtain ⟨eo, beginO, begunO, sameO⟩ := DcacheBlocks.begin_spec h.pendingO h.withinO
  obtain ⟨et, beginT, begunT, sameT⟩ := DcacheBlocks.begin_spec h.pendingT h.withinT
  have first : First a as b bs m := ⟨h.positiveO, h.positiveT, h.same, size⟩
  have least : (if a.blocklen < b.blocklen then a.blocklen else b.blocklen) = m := by
    split <;> omega
  have exhaustedO : (eo.consume m).exhausted = true ↔ as = [] := begunO.exhausted_iff
  have exhaustedT : (et.consume m).exhausted = true ↔ bs = [] := begunT.exhausted_iff
  simp only [GlobInfo.findNextBlock, beginO, beginT, Option.map_some, Option.bind_eq_bind,
    Option.bind_some, GlobInfo.set_other _ _ ne.symm, GlobInfo.set_other _ _ ne,
    GlobInfo.set_same, begunO.remaining, begunT.remaining, begunO.offset, begunT.offset, least,
    ne, ne_eq, not_false_eq_true, if_true, exhaustedO, exhaustedT]
  by_cases done : as = [] ∧ bs = []
  · rw [if_pos done]
    refine ⟨true, _, rfl, ?_⟩
    generalize hc : GlobInfo.set _ t _ = c'
    have atO : c'.dcacheBlocks o = (eo.consume m).reset := by simp [← hc, ne]
    have atT : c'.dcacheBlocks t = (et.consume m).reset := by simp [← hc]
    have moved : Moved c c' o t :=
      ⟨atO ▸ ⟨sameO.blocks, sameO.type, sameO.typeCount⟩,
        atT ▸ ⟨sameT.blocks, sameT.type, sameT.typeCount⟩, fun i io it => by simp [← hc, io, it]⟩
    obtain ⟨noneO, noneT⟩ := first.advance_last done.1 done.2
    exact ⟨noneO, noneT, moved.good h.good, moved.rests h.others (atO ▸ ⟨rfl, rfl⟩) (atT ▸ ⟨rfl, rfl⟩)⟩
  · rw [if_neg done]
    refine ⟨false, _, rfl, ?_⟩
    generalize hc : GlobInfo.set _ t _ = c'
    have atO : c'.dcacheBlocks o = eo.consume m := by simp [← hc, ne]
    have atT : c'.dcacheBlocks t = et.consume m := by simp [← hc]
    have moved : Moved c c' o t :=
      ⟨atO ▸ ⟨sameO.blocks, sameO.type, sameO.typeCount⟩,
        atT ▸ ⟨sameT.blocks, sameT.type, sameT.typeCount⟩, fun i io it => by simp [← hc, io, it]⟩
    exact moved.underway h (atO ▸ begunO.pending_consume first.le_left)
      (atT ▸ begunT.pending_consume first.le_right) (atO ▸ begunO.within) (atT ▸ begunT.within)
      size done fun same => absurd same ne

/-- Both sides of the transfer are the same entry: a whole block is used up at once. -/
theorem findNextBlock_same (h : Underway layout c origin target o o (a :: as) (b :: bs))
    (size : m = min a.blocklen b.blocklen) :
    ∃ last c', c.findNextBlock o o = some (⟨a.displ, b.displ, m⟩, last, c') ∧
      Left layout origin target o o (advance m (a :: as)) (advance m (b :: bs)) last c' := by
  obtain ⟨eo, beginO, begunO, sameO⟩ := DcacheBlocks.begin_spec h.pendingO h.withinO
  obtain ⟨rfl, rfl⟩ := List.cons.inj (h.pendingO.symm.trans h.pendingT)
  rw [Nat.min_self] at size
  subst size
  have first : First a as a as a.blocklen := ⟨h.positiveO, h.positiveO, rfl, (Nat.min_self _).symm⟩
  have again : eo.begin = some eo := begunO.begin_eq h.positiveO.head
  have exhausted : eo.finish.exhausted = true ↔ as = [] := begunO.exhausted_iff
  have pending : eo.finish.pending = advance a.blocklen (a :: as) := by
    simp [DcacheBlocks.pending, DcacheBlocks.finish, begunO.follow, advance]
  simp only [GlobInfo.findNextBlock, beginO, again, Option.map_some, Option.bind_eq_bind,
    Option.bind_some, GlobInfo.set_same, begunO.remaining, begunO.offset, lt_self_iff_false,
    if_false, ne_eq, not_true_eq_false, exhausted, and_self]
  by_cases done : as = []
  · rw [if_pos done]
    refine ⟨true, _, rfl, ?_⟩
    generalize hc : GlobInfo.set _ o _ = c'
    have atO : c'.dcacheBlocks o = eo.finish.reset.reset := by simp [← hc]
    have moved : Moved c c' o o :=
      ⟨atO ▸ ⟨sameO.blocks, sameO.type, sameO.typeCount⟩,
        atO ▸ ⟨sameO.blocks, sameO.type, sameO.typeCount⟩, fun i io _ => by simp [← hc, io]⟩
    obtain ⟨noneO, -⟩ := first.advance_last done done
    exact ⟨noneO, noneO, moved.good h.good, moved.rests h.others (atO ▸ ⟨rfl, rfl⟩) (atO ▸ ⟨rfl, rfl⟩)⟩
  · rw [if_neg done]
    refine ⟨false, _, rfl, ?_⟩
    generalize hc : GlobInfo.set _ o _ = c'
    have atO : c'.dcacheBlocks o = eo.finish := by simp [← hc]
    have moved : Moved c c' o o :=
      ⟨atO ▸ ⟨sameO.blocks, sameO.type, sameO.typeCount⟩,
        atO ▸ ⟨sameO.blocks, sameO.type, sameO.typeCount⟩, fun i io _ => by simp [← hc, io]⟩
    exact moved.underway h (atO ▸ pending) (atO ▸ pending) (atO ▸ begunO.within)
      (atO ▸ begunO.within) (Nat.min_self _).symm (fun both => done both.1) fun _ => atO ▸ rfl

theorem findNextBlock_spec (h : Underway layout c origin target o t (a :: as) (b :: bs))
    (size : m = min a.blocklen b.blocklen) :
    ∃ last c', c.findNextBlock o t = some (⟨a.displ, b.displ, m⟩, last, c') ∧
      Left layout origin target o t (advance m (a :: as)) (advance m (b :: bs)) last c' := by
  by_cases same : o = t
  · subst same
    exact findNextBlock_same h size
  · exact findNextBlock_distinct h same size

/-- `Underway` speaks about the entries only. -/
theorem Underway.congr {c' : GlobInfo ι} (h : Underway layout c origin target o t O T)
    (same : c'.dcacheBlocks = c.dcacheBlocks) : Underway layout c' origin target o t O T := by
  obtain ⟨good, others, holdsO, holdsT, pendingO, pendingT, withinO, withinT, positiveO, positiveT,
    nonempty, total, shared⟩ := h
  refine ⟨⟨?_, ?_⟩, ?_, ?_, ?_, ?_, ?_, ?_, ?_, positiveO, positiveT, nonempty, total, ?_⟩
  all_goals rw [same]
  all_goals first | assumption | exact good.stored | exact good.unique

/-- A transfer begins with the whole layouts of its datatypes pending. -/
theorem underway_first (good : Good layout c) (rests : Rests c) (fits : Fits layout origin target)
    (holdsO : (c.dcacheBlocks o).holds origin) (holdsT : (c.dcacheBlocks t).holds target) :
    Underway layout c origin target o t (layout origin.1 origin.2) (layout target.1 target.2) := by
  have start {i : Fin 10} {key : Key ι} (holds : (c.dcacheBlocks i).holds key) :
      (c.dcacheBlocks i).AtStart := by
    apply rests
    rw [(holds_iff.mp holds).1]
    exact Option.some_ne_none _
  have pending {i : Fin 10} {key : Key ι} (holds : (c.dcacheBlocks i).holds key) :
      (c.dcacheBlocks i).pending = layout key.1 key.2 := by
    rw [DcacheBlocks.pending, if_pos (start holds).2, (start holds).1, List.drop_zero,
      good.stored i key holds]
  exact ⟨good, fun i _ _ => rests i, holdsO, holdsT, pending holdsO, pending holdsT,
    (start holdsO).1 ▸ Nat.zero_le _, (start holdsT).1 ▸ Nat.zero_le _, fits.originPositive,
    fits.targetPositive, fits.originNonempty, fits.sameTotal, fun _ => (start holdsO).2⟩

/-- The loop, by induction on the calls left: each uses up a block of one side at least. -/
theorem transfer_spec (fuel : ℕ) {c c₁ : GlobInfo ι} {O T : List Block}
    (lookup : c.lookup layout origin target = (o, t, c₁))
    (h : Underway layout c₁ origin target o t O T) (enough : O.length + T.length ≤ fuel) :
    ∃ c', c.transfer layout origin target fuel = some (superpose fuel O T, c') ∧
      Good layout c' ∧ Rests c' := by
  induction fuel generalizing c c₁ O T with
  | zero => exact absurd (List.length_eq_zero_iff.mp (by omega)) h.nonempty
  | succ fuel ih =>
    obtain ⟨a, as, rfl⟩ := List.exists_cons_of_ne_nil h.nonempty
    obtain ⟨b, bs, rfl⟩ := List.exists_cons_of_ne_nil h.nonemptyT
    have first := h.first
    have shorter := first.length_lt
    obtain ⟨last, c₂, found, left⟩ := findNextBlock_spec h rfl
    have next : c.getNextBlock layout origin target = c₁.findNextBlock o t := by
      rw [GlobInfo.getNextBlock, lookup]
    cases last with
    | true =>
      obtain ⟨noneO, noneT, good, rests⟩ := left
      refine ⟨c₂, ?_, good, rests⟩
      rw [GlobInfo.transfer, next, found, superpose, noneO, noneT]
      cases fuel <;> rfl
    | false =>
      change Underway layout c₂ origin target o t _ _ at left
      obtain ⟨c₃, again, entries⟩ := lookup_again left.good left.holdsO left.holdsT
      obtain ⟨c', run, good, rests⟩ := ih again (left.congr entries) (by omega)
      refine ⟨c', ?_, good, rests⟩
      rw [GlobInfo.transfer, next, found, superpose]
      simp [run]

/-- A transfer from a cache at rest walks its two layouts in step. -/
theorem transfer_superposes (good : Good layout c) (rests : Rests c)
    (fits : Fits layout origin target) {fuel : ℕ} (enough : calls layout origin target ≤ fuel) :
    ∃ c', c.transfer layout origin target fuel =
        some (superpose fuel (layout origin.1 origin.2) (layout target.1 target.2), c') ∧
      Good layout c' ∧ Rests c' := by
  obtain ⟨o, t, c₁, lookup, good₁, rests₁, holdsO, holdsT⟩ := lookup_first good rests origin target
  exact transfer_spec fuel lookup (underway_first good₁ rests₁ fits holdsO holdsT) enough

/-- A transfer of one block without bytes, on one entry, begins a second block that is not there. -/
theorem transfer_empty_block (good : Good layout c) (rests : Rests c) {key : Key ι} {d : ℤ}
    (empty : layout key.1 key.2 = [⟨d, 0⟩]) (fuel : ℕ) : c.transfer layout key key fuel = none := by
  cases fuel with
  | zero => rfl
  | succ fuel =>
    obtain ⟨o, t, c₁, lookup, good₁, rests₁, holdsO, holdsT⟩ := lookup_first good rests key key
    obtain rfl := good₁.unique o t key holdsO holdsT
    have blocks := (good₁.stored o key holdsO).trans empty
    obtain ⟨pos, remaining⟩ : (c₁.dcacheBlocks o).AtStart :=
      rests₁ o (by rw [(holds_iff.mp holdsO).1]; exact Option.some_ne_none _)
    rw [GlobInfo.transfer, GlobInfo.getNextBlock, lookup]
    simp [GlobInfo.findNextBlock, DcacheBlocks.begin, remaining, pos, blocks]

theorem Good.typeFree (good : Good layout c) (datatype : ι) (reused : ℤ → List Block) :
    Good (Function.update layout datatype reused) (c.typeFree datatype) := by
  have kept {i : Fin 10} {key : Key ι} (h : ((c.typeFree datatype).dcacheBlocks i).holds key) :
      (c.dcacheBlocks i).holds key ∧ key.1 ≠ datatype ∧
        (c.typeFree datatype).dcacheBlocks i = c.dcacheBlocks i := by
    obtain ⟨type, count⟩ := holds_iff.mp h
    by_cases freed : (c.dcacheBlocks i).type = some datatype
    · simp [GlobInfo.typeFree, freed] at type
    · have same : (c.typeFree datatype).dcacheBlocks i = c.dcacheBlocks i := if_neg freed
      rw [same] at h type
      refine ⟨h, fun eq => freed ?_, same⟩
      rw [type, eq]
  constructor
  · intro i key h
    obtain ⟨old, other, same⟩ := kept h
    rw [same, good.stored i key old, Function.update_of_ne other]
  · intro i j key hi hj
    exact good.unique i j key (kept hi).1 (kept hj).1

theorem Rests.typeFree (rests : Rests c) (datatype : ι) : Rests (c.typeFree datatype) := by
  intro i live
  by_cases freed : (c.dcacheBlocks i).type = some datatype
  · simp [GlobInfo.typeFree, freed] at live
  · have same : (c.typeFree datatype).dcacheBlocks i = c.dcacheBlocks i := if_neg freed
    rw [same] at live ⊢
    exact rests i live

/-- Between the calls of any history the cache is good and at rest. -/
theorem reach_rests {memory : Fin 10 → DcacheBlocks ι} {s : State ι}
    (h : Reach step Fitting ⟨dcacheInit memory, layout⟩ s) : Good s.layout s.cache ∧ Rests s.cache := by
  refine h.invariant (P := fun s => Good s.layout s.cache ∧ Rests s.cache) ?_ ?_
  · refine ⟨⟨fun i key holds => ?_, fun i j key holds => ?_⟩, fun i live => absurd rfl live⟩
    all_goals simp [holds_iff, dcacheInit] at holds
  · rintro s (⟨origin, target⟩ | ⟨datatype, reused⟩) u ⟨good, rests⟩ move fits
    · obtain ⟨c', run, good', rests'⟩ :=
        transfer_superposes good rests fits (le_refl (calls s.layout origin target))
      simp only [step, run, Option.map_some, Option.some.injEq] at move
      subst move
      exact ⟨good', rests'⟩
    · simp only [step, Option.some.injEq] at move
      subst move
      exact ⟨good.typeFree datatype reused, rests.typeFree datatype⟩

/-- Whatever was transferred and freed before, a transfer terminates and pairs the bytes of its
two layouts in order, each exactly once. -/
theorem datatype_superposition (memory : Fin 10 → DcacheBlocks ι) {s : State ι}
    (history : Reach step Fitting ⟨dcacheInit memory, layout⟩ s)
    (fits : Fits s.layout origin target) {fuel : ℕ} (enough : calls s.layout origin target ≤ fuel) :
    ∃ chunks c', s.cache.transfer s.layout origin target fuel = some (chunks, c') ∧
      pairs chunks =
        (bytes (s.layout origin.1 origin.2)).zip (bytes (s.layout target.1 target.2)) ∧
      (pairs chunks).length = total (s.layout origin.1 origin.2) := by
  obtain ⟨good, rests⟩ := reach_rests history
  obtain ⟨c', run, -⟩ := transfer_superposes good rests fits enough
  have paired := superpose_pairs fuel fits.originPositive fits.targetPositive fits.sameTotal enough
  refine ⟨_, c', run, paired, ?_⟩
  rw [paired, List.length_zip, length_bytes, length_bytes, fits.sameTotal, Nat.min_self]

/-- Datatype 0 is two words with a gap, every other one is two words in a row. -/
def strided : Layout ℕ := fun datatype _ =>
  if datatype = 0 then [⟨0, 2⟩, ⟨8, 2⟩] else [⟨0, 4⟩]

def reused : ℤ → List Block := fun _ => [⟨16, 1⟩, ⟨24, 3⟩]

/-- After a transfer and the reuse of handle 0, the next transfer follows the new layout. -/
theorem datatype_superposition_reused : ∃ s : State ℕ,
    Reach step Fitting ⟨dcacheInit fun _ => ⟨[], 0, none, 0, 5, 5⟩, strided⟩ s ∧
    ∃ chunks c', s.cache.transfer s.layout (0, 1) (1, 1) 4 = some (chunks, c') ∧
      pairs chunks = [(16, 0), (24, 1), (25, 2), (26, 3)] := by
  have fits : Fits strided (0, 1) (1, 1) :=
    ⟨by simp [Positive, strided], by simp [Positive, strided], by decide, by decide, by decide⟩
  let start : State ℕ := ⟨dcacheInit fun _ => ⟨[], 0, none, 0, 5, 5⟩, strided⟩
  obtain ⟨s, first⟩ : ∃ s, step start (.transfer (0, 1) (1, 1)) = some s :=
    Option.isSome_iff_exists.mp (by decide)
  have transferred : Reach step Fitting start s := .tail .refl first fits
  have history : Reach step Fitting start ⟨s.cache.typeFree 0, Function.update s.layout 0 reused⟩ :=
    .tail (a := Call.typeFree 0 reused) transferred rfl (by trivial)
  simp only [step, Option.map_eq_some_iff] at first
  obtain ⟨_, -, rfl⟩ := first
  have fits' : Fits (Function.update strided 0 reused) (0, 1) (1, 1) :=
    ⟨by simp [Positive, reused], by simp [Positive, strided], by decide, by decide, by decide⟩
  have few : calls (Function.update strided 0 reused) (0, 1) (1, 1) ≤ 4 := by decide
  have zipped : (bytes (Function.update strided 0 reused 0 1)).zip
      (bytes (Function.update strided 0 reused 1 1)) = [(16, 0), (24, 1), (25, 2), (26, 3)] := by
    decide
  obtain ⟨chunks, c', run, paired, -⟩ := datatype_superposition _ history fits' few
  exact ⟨_, history, chunks, c', run, paired.trans zipped⟩

end FoMPI.Dcache
