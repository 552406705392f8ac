import FoMPI.Mpitypes.Datatype

/-!
# Footprints

The bounds of a datatype with no struct in it: `MPIT_Type_calc_footprint` finds the least and the
greatest of them for blocks in any order, strides and extents of either sign, and types of any depth, and the
true bounds are where the data begins and ends.
-/
namespace FoMPI.Mpitypes
open FoMPI.Foundation

section Bounds
variable {cfp : Footprint} {data xs : List ℤ} {lo hi lo' hi' : ℤ} {cnt blklen : ℕ} {row : Row} {rows : List Row}

/-- A footprint has the bounds of its data, and its extent is from one bound to the other. -/
structure Footprint.Around (cfp : Footprint) (data : List ℤ) : Prop where
  extent : cfp.extent = cfp.ub - cfp.lb
  spans : Spans data cfp.trueLb (cfp.trueUb - 1)

/-- The bounds of items whose places span `lo` to `hi`. -/
theorem Footprint.Around.spread (around : cfp.Around data) (spans : Spans xs lo hi) (size : ℕ) :
    (cfp.spread size (cfp.lb + lo, cfp.ub + hi)).Around (placed data xs) := by
  refine ⟨rfl, ?_⟩
  have lower : cfp.lb + lo + (cfp.trueLb - cfp.lb) = lo + cfp.trueLb := by ring
  have upper : cfp.ub + hi + (cfp.trueUb - cfp.ub) - 1 = hi + (cfp.trueUb - 1) := by ring
  have both := spans.placed around.spans
  rw [← lower, ← upper] at both
  exact both

/-- The sign of a multiple. -/
theorem min_max_mul {e : ℤ} (pos : 0 < cnt) (forward : 0 ≤ e) :
    min 0 (e * (cnt - 1)) = 0 ∧ max 0 (e * (cnt - 1)) = e * (cnt - 1) := by
  have nonneg : 0 ≤ e * ((cnt : ℤ) - 1) := mul_nonneg forward (by omega)
  exact ⟨min_eq_left nonneg, max_eq_right nonneg⟩

theorem min_max_mul_neg {e : ℤ} (pos : 0 < cnt) (backward : e < 0) :
    min 0 (e * (cnt - 1)) = e * (cnt - 1) ∧ max 0 (e * (cnt - 1)) = 0 := by
  have nonpos : e * ((cnt : ℤ) - 1) ≤ 0 := mul_nonpos_of_nonpos_of_nonneg backward.le (by omega)
  exact ⟨min_eq_right nonpos, max_eq_left nonpos⟩

theorem blockLbUb_eq (pos : 0 < cnt) (extent : cfp.extent = cfp.ub - cfp.lb) (disp : ℤ) :
    blockLbUb cnt disp cfp.lb cfp.ub cfp.extent = (cfp.lb + (disp + min 0 (cfp.extent * (cnt - 1))),
      cfp.ub + (disp + max 0 (cfp.extent * (cnt - 1)))) := by
  unfold blockLbUb
  rw [if_neg pos.ne']
  split
  · obtain ⟨least, greatest⟩ := min_max_mul (e := cfp.extent) pos (by omega)
    rw [least, greatest, add_zero, add_assoc]
  · obtain ⟨least, greatest⟩ := min_max_mul_neg (e := cfp.extent) pos (by omega)
    rw [least, greatest, add_zero, add_assoc]

theorem contigLbUb_eq (pos : 0 < cnt) (extent : cfp.extent = cfp.ub - cfp.lb) :
    contigLbUb cnt cfp.lb cfp.ub cfp.extent = (cfp.lb + (0 + min 0 (cfp.extent * (cnt - 1))),
      cfp.ub + (0 + max 0 (cfp.extent * (cnt - 1)))) := by
  rw [← blockLbUb_eq pos extent, contigLbUb, blockLbUb, add_zero, add_zero]

theorem vectorLbUb_eq (pos : 0 < cnt) (pos' : 0 < blklen) (stride : ℤ) :
    vectorLbUb cnt stride blklen cfp.lb cfp.ub cfp.extent =
      (cfp.lb + (0 + min 0 (stride * (cnt - 1)) + (0 + min 0 (cfp.extent * (blklen - 1)))),
        cfp.ub + (0 + max 0 (stride * (cnt - 1)) + (0 + max 0 (cfp.extent * (blklen - 1))))) := by
  unfold vectorLbUb
  rw [if_neg (by omega)]
  obtain forward | backward := lt_or_ge cfp.extent 0
  · obtain ⟨least, greatest⟩ := min_max_mul_neg pos' forward
    rw [least, greatest]
    obtain down | up := lt_or_ge stride 0
    · obtain ⟨least, greatest⟩ := min_max_mul_neg pos down
      rw [least, greatest, if_neg (by omega), if_neg (by omega), if_neg (by omega)]
      ring_nf
    · obtain ⟨least, greatest⟩ := min_max_mul pos up
      rw [least, greatest, if_neg (by omega), if_neg (by omega), if_pos ⟨up, forward⟩]
      ring_nf
  · obtain ⟨least, greatest⟩ := min_max_mul pos' backward
    rw [least, greatest]
    obtain down | up := lt_or_ge stride 0
    · obtain ⟨least, greatest⟩ := min_max_mul_neg pos down
      rw [least, greatest, if_neg (by omega), if_pos ⟨down, backward⟩]
      ring_nf
    · obtain ⟨least, greatest⟩ := min_max_mul pos up
      rw [least, greatest, if_pos ⟨up, backward⟩]
      ring_nf

theorem widen_add : widen (cfp.lb + lo, cfp.ub + hi) (cfp.lb + lo', cfp.ub + hi') =
    (cfp.lb + min lo lo', cfp.ub + max hi hi') := by
  unfold widen
  dsimp only
  congr 1
  · split <;> omega
  · split <;> omega

/-- The loop over blocks behind the first one. -/
theorem foldl_widen (extent : cfp.extent = cfp.ub - cfp.lb) (spans : Spans xs lo hi)
    (positive : ∀ row ∈ rows, 0 < row.count) :
    ∃ lo' hi', (rows.map fun row => blockLbUb row.count row.displ cfp.lb cfp.ub cfp.extent).foldl widen
      (cfp.lb + lo, cfp.ub + hi) =
      (cfp.lb + lo', cfp.ub + hi') ∧ Spans (xs ++ starts cfp.extent rows) lo' hi' := by
  induction rows generalizing xs lo hi with
  | nil => exact ⟨lo, hi, rfl, by rwa [starts_nil, List.append_nil]⟩
  | cons row rows ih =>
    obtain ⟨pos, positive⟩ := List.forall_mem_cons.mp positive
    have both := spans.append (Spans.row row.displ cfp.extent pos)
    obtain ⟨lo', hi', run, later⟩ := ih both positive
    refine ⟨lo', hi', ?_, ?_⟩
    · rw [List.map_cons, List.foldl_cons, blockLbUb_eq pos extent, widen_add, run]
    · rwa [List.append_assoc] at later

/-- A footprint of items at these places. -/
def Footprint.SpreadOver (tfp cfp : Footprint) (xs : List ℤ) : Prop :=
  ∃ size lo hi, Spans xs lo hi ∧ tfp = cfp.spread size (cfp.lb + lo, cfp.ub + hi)

theorem spreadOver_blocks (extent : cfp.extent = cfp.ub - cfp.lb) (some_items : ∃ row ∈ rows, row.count ≠ 0) :
    (cfp.blocks rows).SpreadOver cfp (starts cfp.extent rows) := by
  have block (row : Row) : row ∈ rows.filter (fun row => row.count ≠ 0) ↔ row ∈ rows ∧ row.count ≠ 0 := by simp
  have nonempty : rows.filter (fun row => row.count ≠ 0) ≠ [] := by
    obtain ⟨row, mem, some_items⟩ := some_items
    exact List.ne_nil_of_mem ((block row).mpr ⟨mem, some_items⟩)
  rw [← starts_filter]
  unfold Footprint.blocks
  generalize rows.filter (fun row => row.count ≠ 0) = blocks at block nonempty
  cases blocks with
  | nil => exact absurd rfl nonempty
  | cons row rows =>
    have positive : ∀ other ∈ row :: rows, 0 < other.count :=
      fun other mem => Nat.pos_of_ne_zero ((block other).mp mem).2
    obtain ⟨pos, positive⟩ := List.forall_mem_cons.mp positive
    obtain ⟨lo, hi, run, spans⟩ := foldl_widen extent (Spans.row row.displ cfp.extent pos) positive
    refine ⟨((row :: rows).map Row.count).sum * cfp.size, lo, hi, spans, ?_⟩
    dsimp only
    rw [blockLbUb_eq pos extent, run]

theorem starts_vector (cnt blklen : ℕ) (stride extent : ℤ) :
    starts extent ((List.range cnt).map fun i : ℕ => ⟨blklen, i * stride⟩) =
      placed ((Row.mk blklen 0).starts extent) ((Row.mk cnt 0).starts stride) := by
  simp only [starts, placed, Row.starts, List.flatMap_map, List.map_map]
  congr 1
  funext i
  refine List.map_congr_left fun j _ => ?_
  simp only [Function.comp_apply]
  ring

/-- All ways to make a type of items of another one. -/
theorem Combiner.SomeItems.spreadOver {c : Combiner} (some_items : c.SomeItems)
    (extent : cfp.extent = cfp.ub - cfp.lb) :
    (c.footprint cfp).SpreadOver cfp (starts cfp.extent (c.rows cfp.extent)) := by
  cases c with
  | contiguous count =>
    have pos : 0 < count := some_items
    refine ⟨count * cfp.size, _, _, ?_, by rw [Combiner.footprint, if_neg pos.ne', contigLbUb_eq pos extent]⟩
    rw [Combiner.rows, starts_singleton]
    exact Spans.row 0 cfp.extent pos
  | vector count blocklength stride =>
    obtain ⟨pos, pos'⟩ := some_items
    refine ⟨count * blocklength * cfp.size, _, _, ?_,
      by rw [Combiner.footprint, if_neg pos.ne', vectorLbUb_eq pos pos']⟩
    rw [Combiner.rows, starts_vector]
    exact (Spans.row 0 _ pos).placed (Spans.row 0 cfp.extent pos')
  | hvector count blocklength stride =>
    obtain ⟨pos, pos'⟩ := some_items
    refine ⟨count * blocklength * cfp.size, _, _, ?_,
      by rw [Combiner.footprint, if_neg pos.ne', vectorLbUb_eq pos pos']⟩
    rw [Combiner.rows, starts_vector]
    exact (Spans.row 0 _ pos).placed (Spans.row 0 cfp.extent pos')
  | indexedBlock blocklength displacements =>
    obtain ⟨pos, nonempty⟩ := some_items
    obtain ⟨disp, disps, rfl⟩ := List.exists_cons_of_ne_nil nonempty
    have positive : ∀ row ∈ disps.map fun d => Row.mk blocklength (d * cfp.extent), 0 < row.count :=
      List.forall_mem_map.mpr fun _ _ => pos
    obtain ⟨lo, hi, run, spans⟩ := foldl_widen extent (Spans.row (disp * cfp.extent) cfp.extent pos) positive
    rw [List.map_map] at run
    refine ⟨(disps.length + 1) * blocklength * cfp.size, lo, hi, spans, ?_⟩
    rw [Combiner.footprint]
    dsimp only
    rw [blockLbUb_eq pos extent]
    exact congrArg _ run
  | indexed blocks =>
    refine spreadOver_blocks extent ?_
    obtain ⟨row, mem, some_items⟩ := some_items
    exact ⟨_, List.mem_map_of_mem mem, some_items⟩
  | hindexed blocks => exact spreadOver_blocks extent some_items

end Bounds

section Types
variable {ν : Type} {p : Predefined ν} {t : Datatype ν}

/-- The bounds of a datatype with data in all of its parts and no struct in it: those of the items, moved to the
first and the last place, unless they are set. MPI also pads them to the alignment of the data. -/
inductive HasBounds (p : Predefined ν) : Datatype ν → ℤ → ℤ → Prop
  | named (x : ν) : HasBounds p (.named x) 0 (p.size x)
  | dup {oldtype : Datatype ν} {lb ub : ℤ} (old : HasBounds p oldtype lb ub) : HasBounds p (.dup oldtype) lb ub
  | resized {oldtype : Datatype ν} {oldLb oldUb : ℤ} (lb extent : ℤ) (old : HasBounds p oldtype oldLb oldUb) :
    HasBounds p (.resized lb extent oldtype) lb (lb + extent)
  | derived {combiner : Combiner} {oldtype : Datatype ν} {lb ub lo hi : ℤ} (old : HasBounds p oldtype lb ub)
    (spans : Spans (starts (ub - lb) (combiner.rows (ub - lb))) lo hi) :
    HasBounds p (.derived combiner oldtype) (lb + lo) (ub + hi)

/-- There is no struct in the datatype, and there are items in all of its parts. -/
def Datatype.Plain : Datatype ν → Prop
  | named _ => True
  | dup oldtype | resized _ _ oldtype => oldtype.Plain
  | derived combiner oldtype => combiner.SomeItems ∧ oldtype.Plain
  | struct _ _ _ => False

theorem around_named (x : ν) : ((Datatype.named x).calcFootprint p).Around ((Datatype.named x).data p) := by
  refine ⟨(sub_zero _).symm, ?_⟩
  have span := Spans.row 0 1 (p.size_pos x)
  have bytes : (Row.mk (p.size x) 0).starts 1 = (Datatype.named x).data p := by
    simp [Row.starts, Datatype.data, Block.bytes]
  obtain ⟨least, greatest⟩ := min_max_mul (p.size_pos x) zero_le_one
  rw [bytes, least, greatest, add_zero, zero_add, one_mul] at span
  exact span

theorem footprint_spec (plain : t.Plain) :
    HasBounds p t (t.calcFootprint p).lb (t.calcFootprint p).ub ∧ (t.calcFootprint p).Around (t.data p) := by
  induction t with
  | named x => exact ⟨.named x, around_named x⟩
  | dup oldtype ih => exact ⟨.dup (ih plain).1, (ih plain).2⟩
  | resized lb extent oldtype ih =>
    obtain ⟨old, around⟩ := ih plain
    exact ⟨.resized lb extent old, ⟨(add_sub_cancel_left lb extent).symm, around.spans⟩⟩
  | derived combiner oldtype ih =>
    obtain ⟨some_items, plain⟩ := plain
    obtain ⟨old, around⟩ := ih plain
    obtain ⟨size, lo, hi, spans, spread⟩ := some_items.spreadOver around.extent
    rw [Datatype.data, Datatype.calcFootprint, spread]
    exact ⟨.derived old (around.extent ▸ spans), around.spread spans size⟩
  | struct handles members types ih => exact plain.elim

/-- Two pairs of `int`, the second one in front of the first. -/
def backward : Datatype Unit := .derived (.hvector 2 1 (-16)) (.derived (.vector 2 1 2) (.named ()))

end Types

section Structs
variable {ν : Type} {p : Predefined ν} {tfp cfp : Footprint} {parts : List Footprint} {ub disp alignsz : ℤ} {blklen : ℕ}
open OrderDual (toDual)

/-- The footprint of one block of a struct. -/
def Footprint.part (cfp : Footprint) (blklen : ℕ) (disp alignsz : ℤ) : Footprint :=
  { cfp.spread (cfp.size * blklen) (blockLbUb blklen disp cfp.lb cfp.ub cfp.extent) with alignsz := alignsz }

/-- What is known of a struct behind some blocks. A bound that is set hides those that are not; of the true
bounds it is the greatest lower one and the least upper one that are kept. -/
structure Footprint.Collected (parts : List Footprint) (tfp : Footprint) : Prop where
  lb : LeastMarked (parts.map fun part => (part.lb, part.hasStickyLb)) tfp.hasStickyLb tfp.lb
  ub : LeastMarked (parts.map fun part => (toDual part.ub, part.hasStickyUb)) tfp.hasStickyUb (toDual tfp.ub)
  trueLb : IsGreatest {x | x ∈ parts.map Footprint.trueLb} tfp.trueLb
  trueUb : IsLeast {x | x ∈ parts.map Footprint.trueUb} tfp.trueUb
  alignsz : IsGreatest {x | x ∈ 0 :: parts.map Footprint.alignsz} tfp.alignsz

/-- The first block that is not empty. -/
theorem collected_first :
    (Footprint.member true .zero cfp blklen disp alignsz).Collected [cfp.part blklen disp alignsz] := by
  unfold Footprint.member Footprint.part Footprint.spread
  generalize blockLbUb blklen disp cfp.lb cfp.ub cfp.extent = tmp
  obtain ⟨tmpLb, tmpUb⟩ := tmp
  constructor
  · simpa [Footprint.zero] using LeastMarked.singleton tmpLb cfp.hasStickyLb
  · simpa [Footprint.zero] using LeastMarked.singleton (toDual tmpUb) cfp.hasStickyUb
  · simp [isGreatest_singleton]
  · simp [isLeast_singleton]
  · have zero : IsGreatest {x | x ∈ [(0 : ℤ)]} Footprint.zero.alignsz := by simp [Footprint.zero, isGreatest_singleton]
    exact isLeast_concat (α := ℤᵒᵈ) zero Iff.rfl

/-- One more block. -/
theorem Footprint.Collected.member (collected : tfp.Collected parts) :
    (Footprint.member false tfp cfp blklen disp alignsz).Collected (parts ++ [cfp.part blklen disp alignsz]) := by
  obtain ⟨lb, ub, trueLb, trueUb, align⟩ := collected
  unfold Footprint.member Footprint.part Footprint.spread
  generalize blockLbUb blklen disp cfp.lb cfp.ub cfp.extent = tmp
  obtain ⟨tmpLb, tmpUb⟩ := tmp
  constructor
  · rw [List.map_append]
    exact lb.concat tmpLb cfp.hasStickyLb (by simp)
  · rw [List.map_append]
    exact ub.concat (toDual tmpUb) cfp.hasStickyUb (by simp)
  · rw [List.map_append]
    exact isLeast_concat (α := ℤᵒᵈ) trueLb (or_iff_right Bool.false_ne_true)
  · rw [List.map_append]
    exact isLeast_concat trueUb (or_iff_right Bool.false_ne_true)
  · rw [List.map_append, ← List.cons_append]
    exact isLeast_concat (α := ℤᵒᵈ) align Iff.rfl

/-- All blocks behind the first one. -/
theorem Footprint.Collected.foldl {α : Type} {cfp : α → Footprint} {blklen : α → ℕ} {disp alignsz : α → ℤ}
    (collected : tfp.Collected parts) (ms : List α) :
    (ms.foldl (fun tfp m => Footprint.member false tfp (cfp m) (blklen m) (disp m) (alignsz m)) tfp).Collected
      (parts ++ ms.map fun m => (cfp m).part (blklen m) (disp m) (alignsz m)) := by
  induction ms generalizing tfp parts with
  | nil => simpa using collected
  | cons m ms ih =>
    rw [List.foldl_cons, List.map_cons, List.append_cons]
    exact ih collected.member

/-- The end of the data, if it is longer than a multiple of the alignment. -/
theorem isLeast_multiple {lb ub a : ℤ} (pos : 0 < a) (some_left : (ub - lb) % a ≠ 0) :
    IsLeast {x | ub ≤ x ∧ a ∣ x - lb} (ub + (a - (ub - lb) % a)) := by
  have split := Int.emod_add_mul_ediv (ub - lb) a
  have lt := Int.emod_lt_of_pos (ub - lb) pos
  have nonneg := Int.emod_nonneg (ub - lb) pos.ne'
  refine ⟨⟨by omega, (ub - lb) / a + 1, by rw [mul_add]; omega⟩, fun x above => ?_⟩
  obtain ⟨le, k, multiple⟩ := above
  have more : (ub - lb) / a + 1 ≤ k := by
    by_contra less
    have le : a * k ≤ a * ((ub - lb) / a) := mul_le_mul_of_nonneg_left (by omega) pos.le
    omega
  have le : a * ((ub - lb) / a + 1) ≤ a * k := mul_le_mul_of_nonneg_left more pos.le
  rw [mul_add, mul_one] at le
  omega

/-- Padding moves the upper bound only, and only if none is set: then the extent is a multiple of the alignment. -/
structure Footprint.Padded (tfp padded : Footprint) : Prop where
  same : tfp = { padded with ub := tfp.ub, extent := tfp.extent }
  extent : padded.extent = padded.ub - padded.lb
  explicit : padded.hasStickyLb = true ∨ padded.hasStickyUb = true → padded.ub = tfp.ub
  aligned : padded.hasStickyLb = false → padded.hasStickyUb = false → 0 < padded.alignsz →
    padded.alignsz ∣ padded.extent ∧
      (tfp.lb ≤ tfp.ub → IsLeast {ub | tfp.ub ≤ ub ∧ padded.alignsz ∣ ub - padded.lb} padded.ub)

theorem Footprint.padded (tfp : Footprint) : tfp.Padded tfp.pad := by
  unfold Footprint.pad
  dsimp only
  generalize found : (if 0 < tfp.alignsz then (tfp.ub - tfp.lb).tmod tfp.alignsz else 0) = epsilon
  split <;> rename_i padding
  · obtain ⟨noLb, noUb, some_left⟩ := padding
    refine ⟨rfl, by dsimp only; ring, fun set => ?_, fun _ _ pos => ?_⟩
    · simp_all
    · dsimp only at pos ⊢
      rw [if_pos pos] at found
      subst found
      refine ⟨?_, fun ordered => ?_⟩
      · rw [← add_sub_assoc, add_sub_right_comm]
        exact dvd_add Int.dvd_self_sub_tmod dvd_rfl
      · rw [Int.tmod_eq_emod_of_nonneg (by omega)] at some_left ⊢
        exact isLeast_multiple pos some_left
  · refine ⟨rfl, rfl, fun _ => rfl, fun noLb noUb pos => ?_⟩
    dsimp only at noLb noUb pos ⊢
    rw [if_pos pos] at found
    have whole : epsilon = 0 := by
      by_contra some_left
      exact padding ⟨by simp [noLb], by simp [noUb], some_left⟩
    have dvd := Int.dvd_of_tmod_eq_zero (found.trans whole)
    exact ⟨dvd, fun _ => ⟨⟨le_rfl, dvd⟩, fun x above => above.1⟩⟩

/-- A struct with data: the parts of its bounds come from its blocks, and the upper one is padded. -/
theorem struct_footprint {handles : ℕ} (members : List (Member (Fin handles))) (types : Fin handles → Datatype ν)
    (some_items : ∃ m ∈ members, m.blklen ≠ 0) :
    ∃ tfp : Footprint, tfp.Padded ((Datatype.struct handles members types).calcFootprint p) ∧
      tfp.Collected ((members.filter fun m => m.blklen ≠ 0).map fun m =>
        ((types m.oldtype).calcFootprint p).part m.blklen m.disp
          ((types m.oldtype).alignsz p ((types m.oldtype).calcFootprint p) m.disp)) := by
  have nonempty : members.filter (fun m => m.blklen ≠ 0) ≠ [] := by
    obtain ⟨m, mem, some_items⟩ := some_items
    exact List.ne_nil_of_mem (List.mem_filter.mpr ⟨mem, by simpa using some_items⟩)
  rw [Datatype.calcFootprint]
  cases blocks : members.filter fun m => m.blklen ≠ 0 with
  | nil => exact absurd blocks nonempty
  | cons m ms => exact ⟨_, Footprint.padded _, collected_first.foldl ms⟩

/-- `char` and `int`. -/
def charOrInt : Predefined Bool where
  size int := if int then 4 else 1
  alignsize int _ := if int then 4 else 1
  size_pos int := by cases int <;> decide

/-- An `int`, no `int` and a `char`. -/
def intAndChar : List (Member (Fin 2)) :=
  [⟨1, 4, ⟨0, Nat.zero_lt_two⟩⟩, ⟨0, 0, ⟨0, Nat.zero_lt_two⟩⟩, ⟨1, 8, ⟨1, Nat.one_lt_two⟩⟩]

theorem struct_footprint_intAndChar : ∃ tfp : Footprint,
    tfp.Padded ⟨5, 4, 12, 8, 8, 8, 4, false, false⟩ ∧
      tfp.Collected [⟨4, 4, 8, 4, 8, 4, 4, false, false⟩, ⟨1, 8, 9, 8, 9, 1, 1, false, false⟩] :=
  struct_footprint (p := charOrInt) intAndChar (fun i => .named (i.val = 0)) ⟨_, List.mem_cons_self, by decide⟩

end Structs

section Unresized
variable {ν : Type} {p : Predefined ν} {t : Datatype ν} {fuel : ℕ} {stack : ℕ → Stackelm}

/-- No extent in the datatype is set, there is no struct in it, and displacements in bytes do not begin with an
empty block. -/
def Datatype.Unresized : Datatype ν → Prop
  | named _ => True
  | dup oldtype => oldtype.Unresized
  | resized _ _ _ => False
  | derived combiner oldtype =>
    (combiner.SomeItems ∧ ∀ blocks, combiner = .hindexed blocks → ∀ row ∈ blocks.head?, row.count ≠ 0) ∧
      oldtype.Unresized
  | struct _ _ _ => False

theorem Datatype.Unresized.plain (unresized : t.Unresized) : t.Plain := by
  induction t with
  | named x => trivial
  | dup oldtype ih => exact ih unresized
  | resized lb extent oldtype ih => exact unresized.elim
  | derived combiner oldtype ih => exact ⟨unresized.1.1, ih unresized.2⟩
  | struct handles members types ih => exact unresized.elim

/-- Where no extent is set they are positive, and a loop that looks dense is. -/
theorem unresized_spec (unresized : t.Unresized) :
    t.Regular p fuel stack ∧ 0 < (t.calcFootprint p).extent ∧
      ∀ loop, t.dataloopCreate p fuel stack = some loop → (t.withLoop p loop).Even := by
  induction t with
  | named x =>
    refine ⟨trivial, Nat.cast_pos.mpr (p.size_pos x), fun loop created c s e d known => ?_⟩
    obtain rfl := Option.some.inj created
    contradiction
  | dup oldtype ih =>
    obtain ⟨regular, forward, even⟩ := ih unresized
    refine ⟨regular, forward, fun loop created => ?_⟩
    obtain ⟨old, created_old, same⟩ := Option.map_eq_some_iff.mp created
    cases old with
    | some d =>
      subst same
      exact even (some d) created_old
    | none =>
      obtain ⟨x, rfl⟩ := named_of_none created_old
      subst same
      intro c s e d known
      exact Dataloop.noConfusion (Option.some.inj known)
  | resized lb extent oldtype ih => exact unresized.elim
  | derived combiner oldtype ih =>
    obtain ⟨⟨some_items, first⟩, unresized⟩ := unresized
    obtain ⟨regular, forward, even⟩ := ih unresized
    have around := (footprint_spec (p := p) unresized.plain).2
    obtain ⟨size, lo, hi, spans, spread⟩ := some_items.spreadOver around.extent
    have extent : ((Datatype.derived combiner oldtype).calcFootprint p).extent =
        (oldtype.calcFootprint p).extent + (hi - lo) := by
      rw [Datatype.calcFootprint, spread, around.extent, Footprint.spread]
      ring
    have ordered : lo ≤ hi := spans.least.2 spans.greatest.1
    have items : combiner.Regular (oldtype.calcFootprint p).extent := ⟨some_items, fun _ _ => forward.ne', first⟩
    refine ⟨⟨regular, items, fun h created => ?_⟩, by omega, fun loop created => ?_⟩
    · obtain ⟨old, created_old, rfl⟩ := Option.map_eq_some_iff.mp created
      exact (even old created_old).dense
    · rw [Datatype.dataloopCreate, if_neg some_items.count_ne_zero] at created
      obtain ⟨old, created_old, created⟩ := Option.bind_eq_some_iff.mp created
      obtain ⟨old', created_old', stands⟩ := created_spec regular
      obtain rfl := Option.some.inj (created_old.symm.trans created_old')
      obtain ⟨d, run, shaped⟩ := combiner.create_spec stands.sound items
      rw [run] at created
      obtain rfl := Option.some.inj created
      intro c s e inner known
      obtain ⟨n, pos, row, whole⟩ := shaped.even stands.sound (even old created_old) (Option.some.inj known)
      obtain ⟨rfl, rfl⟩ := spans.eq_row pos forward.le row
      have same : (Datatype.withLoop p oldtype old).extent = (oldtype.calcFootprint p).extent := rfl
      have new : ((Datatype.derived combiner oldtype).withLoop p (some d)).extent =
          ((Datatype.derived combiner oldtype).calcFootprint p).extent := rfl
      rw [whole, new, extent, same]
      ring
  | struct handles members types ih => exact unresized.elim

theorem Datatype.Unresized.dense {h : Handle} (unresized : t.Unresized) (created : h ∈ t.handle p fuel stack) :
    h.Dense := by
  obtain ⟨loop, created_loop, rfl⟩ := Option.map_eq_some_iff.mp created
  exact ((unresized_spec unresized).2.2 loop created_loop).dense

end Unresized

end FoMPI.Mpitypes
